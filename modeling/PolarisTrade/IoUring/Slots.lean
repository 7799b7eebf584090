import PolarisTrade.IoUring.System

/-!
# Where the slots are

Each slot is in one place: with the kernel, in a queued provide request, in the completion
queue, on `back`, in a live frame or on the freed list of the pool.  A slot changes place and is
never in two; `back` passes through a swap with the freed list, a sort and a split into runs.

A receive that fails and still names a buffer is read as a failure only, and its slot is in no
place from then on: it is lost.
-/

namespace IoUring

open Transport

/-- A failed completion names no buffer. -/
def Cqe.Clean (cqe : Cqe) : Prop := cqe.result < 0 → cqe.slot = none

instance (cqe : Cqe) : Decidable cqe.Clean := inferInstanceAs (Decidable (_ → _))

/-- The buffer of a receive that failed. -/
def Cqe.lost (cqe : Cqe) : Option ℕ := if cqe.result < 0 then cqe.slot else none

theorem Cqe.Clean.lost_eq {cqe : Cqe} (h : cqe.Clean) : cqe.lost = none := by
  unfold lost
  split_ifs with hneg
  · exact h hneg
  · rfl

theorem Cqe.slot_of_recv {cqe : Cqe} (h : cqe.userData = .recv) :
    cqe.slot = bufferSelect cqe.flags := if_pos h

theorem Cqe.slot_of_ne_recv {cqe : Cqe} (h : cqe.userData ≠ .recv) : cqe.slot = none := if_neg h

namespace UringDriver

variable {d : UringDriver}

/-! ## Completions -/

/-- The slot of a completion goes to a frame or to `back`, or it is lost. -/
theorem completeOne_slots (d : UringDriver) (out : FrameBatch IndexFrame) (cqe : Cqe) :
    ((d.completeOne out cqe).2.1.back
        ++ (d.completeOne out cqe).2.2.frames.map IndexFrame.slot ++ cqe.lost.toList).Perm
      (cqe.slot.toList ++ d.back ++ out.frames.map IndexFrame.slot) := by
  unfold Cqe.lost
  by_cases hrecv : cqe.userData = .recv
  · rw [Cqe.slot_of_recv hrecv]
    unfold completeOne
    rw [hrecv]
    dsimp only
    rcases lt_or_ge cqe.result 0 with hneg | hnonneg
    · rw [classify_of_neg hneg, if_pos hneg, List.append_assoc _ d.back]
      split_ifs
      · exact List.perm_append_comm
      · exact List.perm_append_comm
    · rw [if_neg hnonneg.not_gt, Option.toList_none, List.append_nil]
      cases hselect : bufferSelect cqe.flags with
      | none =>
          rw [classify_of_none hnonneg hselect]
          split_ifs
          · exact .refl _
          · exact .refl _
      | some slot =>
          rw [classify_of_some hnonneg hselect]
          refine List.perm_iff_count.mpr fun s ↦ ?_
          split_ifs
          · simp only [List.count_append, Option.toList_some]
            omega
          · simp only [List.count_append, Option.toList_some, FrameBatch.push, IndexPool.frame,
              List.map_append, List.map_cons, List.map_nil]
            omega
  · rw [Cqe.slot_of_ne_recv hrecv, ite_self, Option.toList_none, List.append_nil]
    unfold completeOne
    cases htag : cqe.userData with
    | recv => exact absurd htag hrecv
    | provide =>
        dsimp only
        split_ifs
        · exact .refl _
        · exact .refl _
    | cancel => exact .refl _
    | probe => exact .refl _

/-- Reading completions moves their slots to frames and to `back`; those of failures are lost. -/
theorem complete_slots (d : UringDriver) (out : FrameBatch IndexFrame) : ∃ lost,
    ((d.complete out).2.1.cq.filterMap Cqe.slot ++ (d.complete out).2.1.back
        ++ (d.complete out).2.2.frames.map IndexFrame.slot ++ lost).Perm
      (d.cq.filterMap Cqe.slot ++ d.back ++ out.frames.map IndexFrame.slot) ∧
    ((∀ cqe ∈ d.cq, cqe.Clean) → lost = []) ∧
    (d.complete out).2.1.cq ⊆ d.cq ∧
    (d.complete out).2.1.sq = d.sq ∧
    (d.complete out).2.1.pool = d.pool ∧
    (d.complete out).2.1.bufRing = d.bufRing := by
  refine complete_invariant
    (I := fun d' out' ↦ ∃ lost,
      (d'.cq.filterMap Cqe.slot ++ d'.back ++ out'.frames.map IndexFrame.slot ++ lost).Perm
        (d.cq.filterMap Cqe.slot ++ d.back ++ out.frames.map IndexFrame.slot) ∧
      ((∀ cqe ∈ d.cq, cqe.Clean) → lost = []) ∧
      d'.cq ⊆ d.cq ∧ d'.sq = d.sq ∧ d'.pool = d.pool ∧ d'.bufRing = d.bufRing) ?_ ?_
  · rintro d' out' cqe cq hcq ⟨lost, hperm, hlost, hsub, hrest⟩
    have hslots := completeOne_slots { d' with cq := cq } out' cqe
    obtain ⟨back, stats, hone⟩ := completeOne_eq { d' with cq := cq } out' cqe
    rw [hone] at hslots ⊢
    refine ⟨lost ++ cqe.lost.toList, .trans ?_ hperm, fun hclean ↦ ?_,
      fun c hc ↦ hsub (hcq ▸ List.mem_cons_of_mem _ hc), hrest⟩
    · rw [hcq]
      refine List.perm_iff_count.mpr fun s ↦ ?_
      have hcount := hslots.count_eq s
      cases hslot : cqe.slot with
      | none =>
          rw [List.filterMap_cons_none hslot]
          simp only [hslot, List.count_append, Option.toList_none, List.count_nil] at hcount ⊢
          omega
      | some slot =>
          rw [List.filterMap_cons_some hslot, List.cons_append, List.cons_append, List.cons_append]
          simp only [hslot, List.count_append, Option.toList_some, List.count_cons,
            List.count_nil] at hcount ⊢
          omega
    · rw [hlost hclean, (hclean cqe (hsub (hcq ▸ List.mem_cons_self))).lost_eq]
      rfl
  · exact ⟨[], by rw [List.append_nil], fun _ ↦ rfl, List.Subset.refl _, rfl, rfl, rfl⟩

/-! ## The buffer ring -/

/-- The entry of a slot. -/
def entry (d : UringDriver) (slot : ℕ) : Entry :=
  ⟨d.base + slot * d.pool.stride, d.slotSize, id16 slot⟩

theorem length_entries_pushSlots (d : UringDriver) (slots : List ℕ) (ring : RingMem) :
    (d.pushSlots ring slots).entries.length = ring.entries.length := by
  induction slots generalizing ring with
  | nil => rfl
  | cons slot slots ih => exact (ih _).trans List.length_set

theorem feeds_pushSlots (d : UringDriver) {head : BitVec 16} {queue received : List Entry}
    (slots : List ℕ) {ring : RingMem} {pending : List Entry}
    (h : ring.Feeds head queue pending received)
    (hroom : queue.length + pending.length + slots.length ≤ ring.entries.length) :
    (d.pushSlots ring slots).Feeds head queue (pending ++ slots.map d.entry) received := by
  induction slots generalizing ring pending with
  | nil =>
      rw [List.map_nil, List.append_nil]
      exact h
  | cons slot slots ih =>
      rw [List.length_cons] at hroom
      have hpush := h.push (by omega) (d.base + slot * d.pool.stride) d.slotSize (id16 slot)
      have hrest := ih hpush (by
        rw [List.length_append, List.length_singleton]
        exact (show _ ≤ ring.entries.length by omega).trans (List.length_set).ge)
      rw [List.append_assoc] at hrest
      exact hrest

end UringDriver

/-! ## The six places -/

namespace Uring

variable {d d' : Uring} {n : ℕ} {lost : List ℕ}

/-- The slots of all six places together. -/
def slots (d : Uring) : List ℕ :=
  d.holds ++ d.driver.sq.flatMap Sqe.slots ++ d.driver.cq.filterMap Cqe.slot ++ d.driver.back
    ++ d.live.map IndexFrame.slot ++ d.driver.pool.freed

/-- Every slot below `n` is in exactly one place, or lost. -/
structure Conserved (n : ℕ) (lost : List ℕ) (d : Uring) : Prop where
  le_maxSlots : n ≤ maxSlots
  perm : (d.slots ++ lost).Perm (List.range n)
  ring : ∀ ring, d.driver.bufRing = some ring → n ≤ ring.entries.length ∧
    d.driver.sq.flatMap Sqe.slots = [] ∧ ∃ queue received, ring.Feeds d.head queue [] received

theorem Conserved.count (h : d.Conserved n lost) (s : ℕ) :
    d.holds.count s + (d.driver.sq.flatMap Sqe.slots).count s
      + (d.driver.cq.filterMap Cqe.slot).count s + d.driver.back.count s
      + (d.live.map IndexFrame.slot).count s + d.driver.pool.freed.count s + lost.count s
      = (List.range n).count s := by
  simpa only [slots, List.count_append] using h.perm.count_eq s

theorem Conserved.length (h : d.Conserved n lost) :
    d.holds.length + d.driver.back.length ≤ n := by
  have hlength := h.perm.length_eq
  simp only [slots, List.length_append, List.length_range] at hlength
  omega

theorem Conserved.back_lt (h : d.Conserved n lost) {slot : ℕ} (hslot : slot ∈ d.driver.back) :
    slot < n := by
  refine List.mem_range.mp (h.perm.subset ?_)
  simp only [slots, List.mem_append]
  exact .inl (.inl (.inl (.inr hslot)))

theorem holds_legacy (hring : d.driver.bufRing = none) : d.holds = d.group := by
  unfold holds
  rw [hring]

theorem holds_ring {ring : RingMem} (hring : d.driver.bufRing = some ring) :
    d.holds = (ring.unread d.head).map Entry.bid := by
  unfold holds
  rw [hring]

theorem Conserved.poll (h : d.Conserved n lost) (cap : ℕ) (phase : Phase) : ∃ lost',
    Conserved n (lost ++ lost')
      { d with
        driver := (d.driver.drainFreed.complete ⟨[], cap⟩).2.1
        live := d.live ++ (d.driver.drainFreed.complete ⟨[], cap⟩).2.2.frames
        phase := phase } ∧
    ((∀ cqe ∈ d.driver.cq, cqe.Clean) → lost' = []) := by
  obtain ⟨lost', hperm, hlost, -, hsq, hpool, hring⟩ :=
    d.driver.drainFreed.complete_slots ⟨[], cap⟩
  generalize d.driver.drainFreed.complete ⟨[], cap⟩ = result at hperm hsq hpool hring ⊢
  obtain ⟨completed, driver, out⟩ := result
  dsimp only at hperm hsq hpool hring ⊢
  refine ⟨lost', ⟨h.le_maxSlots, ?_, ?_⟩, hlost⟩
  · refine List.perm_iff_count.mpr fun s ↦ ?_
    have hcount := h.count s
    have hmoved := hperm.count_eq s
    have hholds : holds { d with driver := driver, live := d.live ++ out.frames, phase := phase }
        = d.holds := by
      unfold holds
      dsimp only
      rw [hring]
      rfl
    rw [slots, hholds]
    dsimp only
    rw [hsq, hpool]
    simp only [List.count_append, List.map_append, UringDriver.drainFreed, IndexPool.drainFreed,
      List.map_nil, List.count_nil] at hcount hmoved ⊢
    omega
  · intro ring hsome
    dsimp only at hsome ⊢
    rw [hsq]
    exact h.ring ring (hring ▸ hsome)

theorem Conserved.giveBack (h : d.Conserved n lost) (rooms : List Room) (phase : Phase) :
    Conserved n lost { d with driver := (d.driver.giveBack rooms).2, phase := phase } := by
  have hgives := d.driver.givesBack_giveBack rooms
  generalize (d.driver.giveBack rooms).2 = driver at hgives ⊢
  have hle := h.le_maxSlots
  unfold maxSlots at hle
  cases hgives with
  | nothing hback => exact ⟨h.le_maxSlots, h.perm, h.ring⟩
  | @ring ring hring hback =>
      obtain ⟨hsize, hsq, queue, received, hfeeds⟩ := h.ring ring hring
      have hholds := holds_ring hring
      rw [hfeeds.unread_eq] at hholds
      have hlength := h.length
      rw [hholds, List.length_map] at hlength
      have hpush := (d.driver.feeds_pushSlots d.driver.back hfeeds (by
        rw [List.length_nil]
        omega)).publish
      refine ⟨h.le_maxSlots, ?_, ?_⟩
      · refine List.perm_iff_count.mpr fun s ↦ ?_
        have hcount := h.count s
        have hbids : (d.driver.back.map d.driver.entry).map Entry.bid = d.driver.back := by
          rw [List.map_map]
          refine (List.map_congr_left fun slot hslot ↦ ?_).trans (List.map_id _)
          exact Nat.mod_eq_of_lt (by have := h.back_lt hslot; omega)
        rw [slots, holds]
        dsimp only
        rw [hpush.unread_eq, List.nil_append, List.map_append, hbids]
        rw [hholds] at hcount
        simp only [List.count_append, List.count_nil] at hcount ⊢
        omega
      · intro ring' hring'
        cases hring'
        refine ⟨?_, hsq, _, _, hpush⟩
        exact hsize.trans (d.driver.length_entries_pushSlots d.driver.back ring).ge
  | @legacy stats provided left hring hback hprovided =>
      have hsort := d.driver.back.perm_insertionSort (· ≤ ·)
      have hlength := h.length
      have hslots := hprovided.slots_eq (by rw [hsort.length_eq]; omega)
        fun slot hslot ↦ by
          have := h.back_lt (hsort.subset hslot)
          omega
      refine ⟨h.le_maxSlots, ?_, fun ring hsome ↦ ?_⟩
      · refine List.perm_iff_count.mpr fun s ↦ ?_
        have hcount := h.count s
        have hmoved := hsort.count_eq s
        rw [← hslots] at hmoved
        rw [holds_legacy hring] at hcount
        rw [slots, holds_legacy (by exact hring)]
        simp only [List.count_append, List.flatMap_append] at hcount hmoved ⊢
        omega
      · exact absurd (hring.symm.trans hsome) nofun

theorem Conserved.arm (h : d.Conserved n lost) (rooms : List Room) (phase : Phase) :
    Conserved n lost { d with driver := (d.driver.arm rooms).2, phase := phase } := by
  obtain ⟨r, stats, k, harm, -⟩ := d.driver.armLoop_eq d.driver.fleet.wanted rooms
  rw [UringDriver.arm, harm]
  refine ⟨h.le_maxSlots, ?_, fun ring hring ↦ ?_⟩
  · have hperm := h.perm
    rw [slots] at hperm ⊢
    dsimp only
    rw [List.flatMap_append, Sqe.slots_replicate_recv, List.append_nil]
    exact hperm
  · obtain ⟨hsize, hsq, hfeeds⟩ := h.ring ring hring
    refine ⟨hsize, ?_, hfeeds⟩
    dsimp only
    rw [List.flatMap_append, Sqe.slots_replicate_recv, List.append_nil]
    exact hsq

theorem Conserved.drop (h : d.Conserved n lost) {i : ℕ} {frame : IndexFrame}
    (hi : d.live[i]? = some frame) :
    Conserved n lost
      { d with
        driver := { d.driver with pool := d.driver.pool.dropFrame frame }
        live := d.live.eraseIdx i } := by
  refine ⟨h.le_maxSlots, ?_, h.ring⟩
  obtain ⟨hlt, hget⟩ := List.getElem?_eq_some_iff.mp hi
  have hlive := (List.getElem_cons_eraseIdx_perm hlt).map IndexFrame.slot
  rw [hget] at hlive
  refine List.perm_iff_count.mpr fun s ↦ ?_
  have hcount := h.count s
  have hmoved := hlive.count_eq s
  simp only [slots, holds, List.count_append, IndexPool.dropFrame, List.map_cons, List.count_cons,
    List.count_nil] at hcount hmoved ⊢
  omega

/-- The kernel takes a submission; provided slots join its group. -/
theorem Conserved.take (h : d.Conserved n lost) {entry : Sqe} {sq : List Sqe}
    (hsq : d.driver.sq = entry :: sq) :
    Conserved n lost
      { d with
        driver := { d.driver with sq := sq }
        group := d.group ++ entry.slots
        recvs := d.recvs + entry.isRecv.toNat } := by
  refine ⟨h.le_maxSlots, ?_, fun ring hring ↦ ?_⟩
  · refine List.perm_iff_count.mpr fun s ↦ ?_
    have hcount := h.count s
    rw [hsq, List.flatMap_cons] at hcount
    obtain hring | ⟨ring, hring⟩ := Option.eq_none_or_eq_some d.driver.bufRing
    · rw [holds_legacy hring] at hcount
      rw [slots, holds_legacy (by exact hring)]
      simp only [List.count_append] at hcount ⊢
      omega
    · have hnil := (h.ring ring hring).2.1
      rw [hsq, List.flatMap_cons, List.append_eq_nil_iff] at hnil
      rw [hnil.1] at hcount
      rw [holds_ring hring] at hcount
      rw [slots, holds_ring (by exact hring)]
      simp only [List.count_append, List.count_nil] at hcount ⊢
      omega
  · obtain ⟨hsize, hnil, hfeeds⟩ := h.ring ring hring
    rw [hsq, List.flatMap_cons, List.append_eq_nil_iff] at hnil
    exact ⟨hsize, hnil.2, hfeeds⟩

/-- A completion without a buffer. -/
theorem Conserved.queue (h : d.Conserved n lost) {cqe : Cqe} (hslot : cqe.slot = none)
    (ended : ℕ) : Conserved n lost (d.queue cqe ended) := by
  refine ⟨h.le_maxSlots, ?_, h.ring⟩
  have hperm := h.perm
  rw [slots] at hperm ⊢
  unfold Uring.queue
  dsimp only
  rw [List.filterMap_append, List.filterMap_cons_none hslot, List.filterMap_nil,
    List.append_nil]
  exact hperm

/-- A completion in a buffer of the kernel. -/
theorem Conserved.select (h : d.Conserved n lost) {cqe : Cqe} {slot : ℕ}
    (hslot : cqe.slot = some slot) (hselect : d.select slot = some d') (ended : ℕ) :
    Conserved n lost (d'.queue cqe ended) := by
  have hcq : (d.driver.cq ++ [cqe]).filterMap Cqe.slot
      = d.driver.cq.filterMap Cqe.slot ++ [slot] := by
    rw [List.filterMap_append, List.filterMap_cons_some hslot, List.filterMap_nil]
  unfold Uring.select at hselect
  obtain hring | ⟨ring, hring⟩ := Option.eq_none_or_eq_some d.driver.bufRing
  · rw [hring] at hselect
    dsimp only at hselect
    split at hselect
    · next hmem =>
        cases hselect
        refine ⟨h.le_maxSlots, ?_, h.ring⟩
        refine List.perm_iff_count.mpr fun s ↦ ?_
        have hcount := h.count s
        have herase := (List.perm_cons_erase hmem).count_eq s
        rw [holds_legacy hring] at hcount
        rw [slots, holds_legacy (by exact hring)]
        unfold Uring.queue
        dsimp only
        rw [hcq]
        simp only [List.count_append, List.count_cons, List.count_nil] at hcount herase ⊢
        omega
    · cases hselect
  · rw [hring] at hselect
    dsimp only at hselect
    split at hselect
    · next hhead =>
        cases hselect
        obtain ⟨hsize, hsq, queue, received, hfeeds⟩ := h.ring ring hring
        have hne : queue ≠ [] := by
          intro hnil
          have hunread := hfeeds.unread_eq
          rw [hnil, RingMem.unread_eq_nil_iff] at hunread
          exact hhead.1 hunread
        obtain ⟨entry, queue, rfl⟩ := List.exists_cons_of_ne_nil hne
        have hholds := holds_ring hring
        rw [hfeeds.unread_eq] at hholds
        obtain ⟨hread, htake⟩ := hfeeds.take
        refine ⟨h.le_maxSlots, ?_, fun ring' hring' ↦ ?_⟩
        · refine List.perm_iff_count.mpr fun s ↦ ?_
          have hcount := h.count s
          rw [hholds, List.map_cons, ← hread, hhead.2] at hcount
          have hholds' : holds { d with head := d.head + 1 } = queue.map Entry.bid := by
            rw [holds_ring (d := { d with head := d.head + 1 }) hring, htake.unread_eq]
          rw [slots]
          change List.count s (holds { d with head := d.head + 1 } ++ _
            ++ (d.driver.cq ++ [cqe]).filterMap Cqe.slot ++ _ ++ _ ++ _ ++ _) = _
          rw [hholds', hcq]
          simp only [List.count_append, List.count_cons, List.count_nil] at hcount ⊢
          change _ + List.count s (d.driver.sq.flatMap Sqe.slots) + _
            + List.count s d.driver.back + List.count s (d.live.map IndexFrame.slot)
            + List.count s d.driver.pool.freed + List.count s lost = _
          omega
        · obtain rfl : ring = ring' := Option.some_inj.mp (hring.symm.trans hring')
          exact ⟨hsize, hsq, queue, _, htake⟩
    · cases hselect

/-! ## Runs -/

/-- Provide requests the kernel accepted do not fail. -/
def Accepts (_ : Uring) : Event → Prop
  | .post cqe => cqe.userData = .provide → 0 ≤ cqe.result
  | _ => True

instance : ∀ (d : Uring) (ev : Event), Decidable (d.Accepts ev)
  | _, .post cqe => inferInstanceAs (Decidable (cqe.userData = .provide → 0 ≤ cqe.result))
  | _, .poll _ | _, .giveBack _ | _, .arm _ | _, .submit _ _ | _, .drop _ | _, .take
  | _, .teardown | _, .cancel _ _ _ | _, .reap => inferInstanceAs (Decidable True)

/-- A receive that fails names no buffer. -/
def Recycles (_ : Uring) : Event → Prop
  | .post cqe => cqe.Clean
  | _ => True

instance : ∀ (d : Uring) (ev : Event), Decidable (d.Recycles ev)
  | _, .post cqe => inferInstanceAs (Decidable cqe.Clean)
  | _, .poll _ | _, .giveBack _ | _, .arm _ | _, .submit _ _ | _, .drop _ | _, .take
  | _, .teardown | _, .cancel _ _ _ | _, .reap => inferInstanceAs (Decidable True)

theorem Conserved.start (cfg : ValidConfig) (path : RecvPath) (skipSuccess : Bool) (base : ℕ) :
    Conserved cfg.1.slots [] (.start cfg path skipSuccess base) := by
  have hfed : ∀ ring, UringDriver.ringOf cfg path = some ring →
      cfg.1.slots.1 ≤ ring.entries.length ∧ ring.Feeds 0 [] [] [] := by
    intro ring hring
    cases path with
    | legacy => cases hring
    | bufRing | multishot =>
        cases hring
        refine ⟨?_, .new _ _⟩
        exact (Nat.le_pow_clog (by decide) _).trans (List.length_replicate).ge
  have hholds : holds (.start cfg path skipSuccess base) = [] := by
    obtain hring | ⟨ring, hring⟩ := Option.eq_none_or_eq_some (UringDriver.ringOf cfg path)
    · exact holds_legacy (by exact hring)
    · refine (holds_ring (by exact hring)).trans ?_
      exact congrArg (List.map Entry.bid) (hfed ring hring).2.unread_eq
  refine ⟨cfg.slots_le, ?_, fun ring hring ↦ ?_⟩
  · rw [slots, hholds]
    change (List.range cfg.1.slots ++ [] ++ [] ++ []).Perm _
    rw [List.append_nil, List.append_nil, List.append_nil]
  · exact ⟨(hfed ring hring).1, rfl, _, _, (hfed ring hring).2⟩

/-- Slots are lost only in a poll that reads a failure. -/
theorem Conserved.next {ev : Event} (h : d.phase.isAlive = true → d.Conserved n lost)
    (hnext : d.next ev = some d') (halive : d'.phase.isAlive = true) : ∃ lost',
    d'.Conserved n (lost ++ lost') ∧ ((∀ cqe ∈ d.driver.cq, cqe.Clean) → lost' = []) := by
  have hkeeps : d'.Conserved n lost → ∃ lost', d'.Conserved n (lost ++ lost') ∧
      ((∀ cqe ∈ d.driver.cq, cqe.Clean) → lost' = []) := fun hc ↦
    ⟨[], by rwa [List.append_nil], fun _ ↦ rfl⟩
  cases moves_of_next hnext with
  | poll hphase cap => exact (h (by rw [hphase]; rfl)).poll cap _
  | giveBack hphase rooms => exact hkeeps ((h (by rw [hphase]; rfl)).giveBack rooms _)
  | arm hphase rooms => exact hkeeps ((h (by rw [hphase]; rfl)).arm rooms _)
  | submit hphase cqOverflow submitted =>
      have hc := h (by rw [hphase]; rfl)
      exact hkeeps ⟨hc.le_maxSlots, hc.perm, hc.ring⟩
  | drop hi => exact hkeeps ((h halive).drop hi)
  | take hsq => exact hkeeps ((h halive).take hsq)
  | @recv cqe d₁ hrecv hpos hselect =>
      have hc : d.Conserved n lost := by
        obtain ⟨group, head, rfl⟩ := selectOf_eq hselect
        exact h halive
      unfold selectOf at hselect
      split at hselect
      · next hnone =>
          cases hselect
          exact hkeeps (hc.queue ((Cqe.slot_of_recv hrecv).trans hnone) _)
      · next slot hsome =>
          exact hkeeps (hc.select ((Cqe.slot_of_recv hrecv).trans hsome) hselect _)
  | post hrecv => exact hkeeps ((h halive).queue (Cqe.slot_of_ne_recv hrecv) 0)
  | teardown hphase => cases halive
  | cancel hphase =>
      rw [isAlive_cancel] at halive
      cases halive
  | reap hphase => cases halive

/-- If no receive fails with a buffer, no completion in the queue is such a failure. -/
theorem clean_of_next {ev : Event} (h : ∀ cqe ∈ d.driver.cq, cqe.Clean)
    (hrecycles : d.Recycles ev) (hnext : d.next ev = some d') :
    ∀ cqe ∈ d'.driver.cq, cqe.Clean := by
  have hqueue {driver : UringDriver} {cqe : Cqe} (hcq : driver.cq = d.driver.cq)
      (hclean : cqe.Clean) : ∀ other ∈ driver.cq ++ [cqe], other.Clean := by
    intro other hother
    rcases List.mem_append.mp hother with hmem | hmem
    · exact h other (hcq ▸ hmem)
    · rw [List.mem_singleton.mp hmem]
      exact hclean
  cases moves_of_next hnext with
  | poll hphase cap =>
      obtain ⟨-, -, -, hsub, -⟩ := d.driver.drainFreed.complete_slots ⟨[], cap⟩
      exact fun cqe hcqe ↦ h cqe (hsub hcqe)
  | giveBack hphase rooms =>
      dsimp only
      have hgives := d.driver.givesBack_giveBack rooms
      generalize (d.driver.giveBack rooms).2 = driver at hgives ⊢
      cases hgives with
      | nothing hback => exact h
      | ring hring hback => exact h
      | legacy hring hback hprovided => exact h
  | arm hphase rooms =>
      obtain ⟨r, stats, k, harm, -⟩ := d.driver.armLoop_eq d.driver.fleet.wanted rooms
      rw [UringDriver.arm, harm]
      exact h
  | submit hphase cqOverflow submitted => exact h
  | drop hi => exact h
  | take hsq => exact h
  | @recv cqe d₁ hrecv hpos hselect =>
      obtain ⟨group, head, rfl⟩ := selectOf_eq hselect
      exact hqueue rfl hrecycles
  | post hrecv => exact hqueue rfl hrecycles
  | teardown hphase => exact h
  | @cancel hphase left room waited =>
      obtain ⟨entries, stats, hcancel, -⟩ := cancel_eq d.driver left room waited
      rw [hcancel]
      exact h
  | reap hphase => exact fun _ hmem ↦ by cases hmem

/-- While the driver lives, on every path and whatever pushes and enters return, each slot is in
exactly one of the six places, and the buffer ring has room for what lies in it, if no receive
fails with a buffer in its completion. -/
theorem slots_in_one_place {cfg : ValidConfig} {path : RecvPath} {skipSuccess : Bool} {base : ℕ}
    (hrun : machine.Run (fun d ev ↦ d.Accepts ev ∧ d.Recycles ev)
      (start cfg path skipSuccess base) d) (halive : d.phase.isAlive = true) :
    d.slots.Perm (List.range cfg.1.slots) ∧
    ∀ ring, d.driver.bufRing = some ring →
      (ring.unread d.head).length ≤ ring.mask.toNat + 1 ∧
      (ring.tail - d.head).toNat ≤ ring.mask.toNat + 1 := by
  have hconserved : (d.phase.isAlive = true → d.Conserved cfg.1.slots []) ∧
      ∀ cqe ∈ d.driver.cq, cqe.Clean := by
    refine hrun.invariant (I := fun d ↦ (d.phase.isAlive = true → d.Conserved cfg.1.slots []) ∧
      ∀ cqe ∈ d.driver.cq, cqe.Clean) ⟨fun _ ↦ .start cfg path skipSuccess base, ?_⟩ ?_
    · exact List.forall_mem_nil _
    · rintro d ev d' ⟨h, hclean⟩ hallowed hnext
      refine ⟨fun halive ↦ ?_, clean_of_next hclean hallowed.2 hnext⟩
      obtain ⟨lost, hc, hlost⟩ := Conserved.next h hnext halive
      rwa [hlost hclean] at hc
  have h := hconserved.1 halive
  have hperm := h.perm
  rw [List.append_nil] at hperm
  refine ⟨hperm, fun ring hring ↦ ?_⟩
  obtain ⟨-, -, queue, received, hfeeds⟩ := h.ring ring hring
  have hle := hfeeds.length_le
  rw [hfeeds.unread_eq, hfeeds.toNat_tail_sub, ← ring.length_entries]
  rw [List.length_nil] at hle ⊢
  exact ⟨hle, hle⟩

/-- Both slots come back in frames and one goes round again, with a push that fails. -/
theorem slots_in_one_place_recycled : ∃ d,
    machine.Run (fun d ev ↦ d.Accepts ev ∧ d.Recycles ev) (start sampleConfig .legacy true 0) d ∧
    d.driver.back = [0] ∧ d.slots.Perm [0, 1] := by
  have hend : ∃ d ∈ Machine.follow next (start sampleConfig .legacy true 0)
      [.giveBack [], .arm [], .submit false none, .take, .take, .take,
        .post ⟨.recv, 10, 0x10001⟩, .post ⟨.recv, 20, 1⟩, .poll 4, .giveBack [], .arm [],
        .submit false (some ebusy), .drop 1, .poll 4, .giveBack [.full none false]],
      d.phase.isAlive = true ∧ d.driver.back = [0] := by
    decide +kernel
  obtain ⟨d, hd, halive, hback⟩ := hend
  have hrun : machine.Run (fun d ev ↦ d.Accepts ev ∧ d.Recycles ev) _ d :=
    .of_follow (by decide +kernel) hd
  exact ⟨d, hrun, hback, (slots_in_one_place hrun halive).1⟩

/-- A receive fails with buffer 0 in its completion: the call returns the error, and slot 0 is
in none of the places. -/
theorem slot_lost_with_failure : ∃ d,
    machine.Run Accepts (start sampleConfig .legacy true 0) d ∧
    d.phase = .idle (some (.error ⟨"io_uring recv", .raw 4⟩)) ∧ d.slots = [1] := by
  have hend : ∃ d ∈ Machine.follow next (start sampleConfig .legacy true 0)
      [.giveBack [], .arm [], .submit false none, .take, .take, .take, .post ⟨.recv, -4, 1⟩,
        .poll 4, .giveBack [], .arm [], .submit false none],
      d.phase = .idle (some (.error ⟨"io_uring recv", .raw 4⟩)) ∧ d.slots = [1] := by
    decide +kernel
  obtain ⟨d, hd, hphase, hslots⟩ := hend
  exact ⟨d, .of_follow (by decide +kernel) hd, hphase, hslots⟩

end Uring

end IoUring
