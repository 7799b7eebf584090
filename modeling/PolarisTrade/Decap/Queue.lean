import PolarisTrade.Bypass
import PolarisTrade.Decap.Encoding
import PolarisTrade.Lib.Machine

/-!
# Frames through decapsulation

`UdpDecap` takes bursts of Ethernet frames from its source, at most `burst` at a time, and hands
on those `parseUdp` accepts.  Frames that do not fit the caller's batch wait in `pending`, and the
source is read only when that queue is empty.  Over the bypass shell the frames delivered are a
plain filter of what the driver pushed, and every error of the driver comes out once.
-/

namespace Transport

/-! ## The component -/

/-- Frames dropped, per reason. -/
structure DecapStats where
  notIpv4 : UInt64 := 0
  fragment : UInt64 := 0
  wrongDst : UInt64 := 0
  truncated : UInt64 := 0

namespace DecapStats

def count (stats : DecapStats) : DecapDrop → DecapStats
  | .notIpv4 => { stats with notIpv4 := stats.notIpv4 + 1 }
  | .fragment => { stats with fragment := stats.fragment + 1 }
  | .wrongDst => { stats with wrongDst := stats.wrongDst + 1 }
  | .truncated => { stats with truncated := stats.truncated + 1 }

def total (stats : DecapStats) : UInt64 :=
  stats.notIpv4 + stats.fragment + stats.wrongDst + stats.truncated

end DecapStats

structure UdpDecap (S F : Type) where
  inner : S
  dstPort : ℕ
  dstIp : Option Ipv4Addr
  collected : FrameBatch F
  pending : List F
  stats : DecapStats

variable {S F : Type} [AsRef F]

/-- Push pending frames while `out` has room; filtered ones drop here. -/
def deliverLoop (dstPort : ℕ) (dstIp : Option Ipv4Addr) :
    List F → DecapStats → FrameBatch (DecapFrame F) → ℕ →
      ℕ × List F × DecapStats × FrameBatch (DecapFrame F)
  | [], stats, out, pushed => (pushed, [], stats, out)
  | frame :: rest, stats, out, pushed =>
      if 0 < out.spare then
        match parseUdp (AsRef.asRef frame) dstPort dstIp with
        | .ok (payload, peer) =>
            deliverLoop dstPort dstIp rest stats (out.push ⟨frame, payload, peer⟩) (pushed + 1)
        | .error reason => deliverLoop dstPort dstIp rest (stats.count reason) out pushed
      else (pushed, frame :: rest, stats, out)

namespace UdpDecap

omit [AsRef F] in
def new (inner : S) (dstPort : ℕ) (dstIp : Option Ipv4Addr) (burst : ℕ) : UdpDecap S F where
  inner := inner
  dstPort := dstPort
  dstIp := dstIp
  collected := ⟨[], burst⟩
  pending := []
  stats := {}

def deliver (t : UdpDecap S F) (out : FrameBatch (DecapFrame F)) :
    ℕ × UdpDecap S F × FrameBatch (DecapFrame F) :=
  let (pushed, pending, stats, out) := deliverLoop t.dstPort t.dstIp t.pending t.stats out 0
  (pushed, { t with pending := pending, stats := stats }, out)

/-- The source is read only while nothing is pushed yet, so its error never follows frames.
The turns of the loop are bounded by `fuel`. -/
def fill [L2Recv S F] : ℕ → UdpDecap S F → FrameBatch (DecapFrame F) →
    Option (Except TransportError ℕ × UdpDecap S F × FrameBatch (DecapFrame F))
  | 0, _, _ => none
  | fuel + 1, t, out =>
      let (pushed, t, out) := t.deliver out
      if 0 < pushed ∨ out.spare = 0 then some (.ok pushed, t, out)
      else
        match L2Recv.recvBurst t.inner t.collected with
        | (.error e, inner, collected) =>
            some (.error e, { t with inner := inner, collected := collected }, out)
        | (.ok 0, inner, collected) =>
            some (.ok 0, { t with inner := inner, collected := collected }, out)
        | (.ok (_ + 1), inner, collected) =>
            fill fuel { t with
              inner := inner
              pending := t.pending ++ collected.frames
              collected := { collected with frames := [] } } out

def recvBurst [L2Recv S F] (fuel : ℕ) (t : UdpDecap S F) (out : FrameBatch (DecapFrame F)) :
    Option (Except TransportError ℕ × UdpDecap S F × FrameBatch (DecapFrame F)) :=
  fill fuel t out

end UdpDecap

/-! ## Counting -/

namespace DecapStats

/-- The counter of one reason. -/
def of (stats : DecapStats) : DecapDrop → UInt64
  | .notIpv4 => stats.notIpv4
  | .fragment => stats.fragment
  | .wrongDst => stats.wrongDst
  | .truncated => stats.truncated

theorem of_count (stats : DecapStats) (reason reason' : DecapDrop) :
    (stats.count reason).of reason' =
      stats.of reason' + UInt64.ofNat (if reason == reason' then 1 else 0) := by
  cases reason <;> cases reason' <;> first | rfl | exact (UInt64.add_zero _).symm

theorem total_count (stats : DecapStats) (reason : DecapDrop) :
    (stats.count reason).total = stats.total + 1 := by
  cases reason <;> simp only [count, total] <;> ac_rfl

def countAll (stats : DecapStats) (drops : List DecapDrop) : DecapStats := drops.foldl count stats

theorem of_countAll (drops : List DecapDrop) (reason : DecapDrop) :
    ∀ stats : DecapStats,
      (stats.countAll drops).of reason = stats.of reason + UInt64.ofNat (drops.count reason) := by
  induction drops with
  | nil => exact fun stats ↦ (UInt64.add_zero _).symm
  | cons drop drops ih =>
      intro stats
      rw [countAll, List.foldl_cons, ← countAll, ih, of_count, List.count_cons, UInt64.add_assoc,
        ← UInt64.ofNat_add, Nat.add_comm]

theorem total_countAll (drops : List DecapDrop) :
    ∀ stats : DecapStats,
      (stats.countAll drops).total = stats.total + UInt64.ofNat drops.length := by
  induction drops with
  | nil => exact fun stats ↦ (UInt64.add_zero _).symm
  | cons drop drops ih =>
      intro stats
      rw [countAll, List.foldl_cons, ← countAll, ih, total_count, List.length_cons,
        UInt64.add_assoc, UInt64.ofNat_add, UInt64.add_comm 1]
      rfl

end DecapStats

/-! ## One delivery -/

section Filter

variable (dstPort : ℕ) (dstIp : Option Ipv4Addr)

/-- The datagram in a frame that is kept. -/
def accept (frame : F) : Option (DecapFrame F) :=
  match parseUdp (AsRef.asRef frame) dstPort dstIp with
  | .ok (payload, peer) => some ⟨frame, payload, peer⟩
  | .error _ => none

/-- Why a frame is filtered. -/
def dropOf (frame : F) : Option DecapDrop :=
  match parseUdp (AsRef.asRef frame) dstPort dstIp with
  | .ok _ => none
  | .error reason => some reason

/-- Some first part of the queue is taken: the frames accepted in it are pushed, the others
counted.  What stays waits for room. -/
theorem deliverLoop_eq (queue : List F) :
    ∀ (stats : DecapStats) (out : FrameBatch (DecapFrame F)) (pushed : ℕ),
      ∃ taken rest, queue = taken ++ rest ∧
        deliverLoop dstPort dstIp queue stats out pushed =
          (pushed + (taken.filterMap (accept dstPort dstIp)).length, rest,
            stats.countAll (taken.filterMap (dropOf dstPort dstIp)),
            { out with frames := out.frames ++ taken.filterMap (accept dstPort dstIp) }) ∧
        (rest = [] ∨ out.cap ≤ out.frames.length + (taken.filterMap (accept dstPort dstIp)).length)
    := by
  induction queue with
  | nil =>
      intro stats out pushed
      exact ⟨[], [], rfl, by simp [deliverLoop, DecapStats.countAll], Or.inl rfl⟩
  | cons frame queue ih =>
      intro stats out pushed
      unfold deliverLoop
      by_cases hroom : 0 < out.spare
      · rw [if_pos hroom]
        cases hparse : parseUdp (AsRef.asRef frame) dstPort dstIp with
        | ok result =>
            obtain ⟨payload, peer⟩ := result
            have haccept : accept dstPort dstIp frame = some ⟨frame, payload, peer⟩ := by
              rw [accept, hparse]
            have hdrop : dropOf dstPort dstIp frame = none := by rw [dropOf, hparse]
            obtain ⟨taken, rest, rfl, heq, hrest⟩ := ih stats (out.push ⟨frame, payload, peer⟩)
              (pushed + 1)
            refine ⟨frame :: taken, rest, rfl, ?_, ?_⟩
            · dsimp only
              rw [heq, List.filterMap_cons_some haccept, List.filterMap_cons_none hdrop]
              simp only [FrameBatch.push, List.append_assoc, List.singleton_append,
                List.length_cons]
              rw [Nat.add_assoc, Nat.add_comm 1]
            · refine hrest.imp_right fun hfull ↦ ?_
              rw [List.filterMap_cons_some haccept, List.length_cons]
              simp only [FrameBatch.push, List.length_append, List.length_singleton] at hfull
              omega
        | error reason =>
            have haccept : accept dstPort dstIp frame = none := by rw [accept, hparse]
            have hdrop : dropOf dstPort dstIp frame = some reason := by rw [dropOf, hparse]
            obtain ⟨taken, rest, rfl, heq, hrest⟩ := ih (stats.count reason) out pushed
            refine ⟨frame :: taken, rest, rfl, ?_, ?_⟩
            · dsimp only
              rw [heq, List.filterMap_cons_none haccept, List.filterMap_cons_some hdrop]
              rfl
            · rwa [List.filterMap_cons_none haccept]
      · rw [if_neg hroom]
        refine ⟨[], frame :: queue, rfl, by simp [DecapStats.countAll], Or.inr ?_⟩
        unfold FrameBatch.spare at hroom
        simp only [List.filterMap_nil, List.length_nil]
        omega

end Filter

namespace UdpDecap

def accept (t : UdpDecap S F) : F → Option (DecapFrame F) := Transport.accept t.dstPort t.dstIp

def dropOf (t : UdpDecap S F) : F → Option DecapDrop := Transport.dropOf t.dstPort t.dstIp

theorem deliver_eq (t : UdpDecap S F) (out : FrameBatch (DecapFrame F)) :
    ∃ taken rest, t.pending = taken ++ rest ∧
      t.deliver out = ((taken.filterMap t.accept).length,
        { t with pending := rest, stats := t.stats.countAll (taken.filterMap t.dropOf) },
        { out with frames := out.frames ++ taken.filterMap t.accept }) ∧
      (rest = [] ∨ out.cap ≤ out.frames.length + (taken.filterMap t.accept).length) := by
  obtain ⟨taken, rest, hqueue, heq, hrest⟩ :=
    deliverLoop_eq t.dstPort t.dstIp t.pending t.stats out 0
  refine ⟨taken, rest, hqueue, ?_, hrest⟩
  rw [deliver, heq, Nat.zero_add]
  rfl

end UdpDecap

/-! ## The ledger -/

/-- Decapsulation over the shell over a scripted driver. -/
abbrev ScriptedDecap (F : Type) := UdpDecap (BypassTransport (Scripted F)) F

omit [AsRef F] in
/-- Answers the driver gave so far. -/
def UdpDecap.given (t : ScriptedDecap F) : List (Answer F) := t.inner.driver.script.given

omit [AsRef F] in
/-- Frames the driver pushed so far. -/
def UdpDecap.pushed (t : ScriptedDecap F) : List F := t.given.flatMap Answer.pushed

namespace ScriptedDecap

/-- What was pushed, delivered, counted and returned so far is in step: `consumed` are the
frames taken from the queue. -/
structure Ledger (burst : ℕ) (delivered : List (DecapFrame F)) (errors : List TransportError)
    (t : ScriptedDecap F) : Prop where
  frames : ∃ consumed, t.pushed = consumed ++ t.pending ∧
    delivered = consumed.filterMap t.accept ∧
    t.stats = DecapStats.countAll {} (consumed.filterMap t.dropOf)
  queue_le : t.pending.length ≤ burst
  collected : t.collected = ⟨[], burst⟩
  script : ∀ a ∈ t.inner.driver.script.coming, a.pushed.length ≤ burst
  errors : errors ++ t.inner.deferred.toList = t.given.filterMap Answer.failure

variable {burst : ℕ} {delivered : List (DecapFrame F)} {errors : List TransportError}
  {t : ScriptedDecap F}

theorem Ledger.deliver (h : Ledger burst delivered errors t) {taken rest : List F}
    (hqueue : t.pending = taken ++ rest) :
    Ledger burst (delivered ++ taken.filterMap t.accept) errors
      { t with pending := rest, stats := t.stats.countAll (taken.filterMap t.dropOf) } := by
  obtain ⟨consumed, hpushed, hdelivered, hstats⟩ := h.frames
  refine ⟨⟨consumed ++ taken, ?_, ?_, ?_⟩, ?_, h.collected, h.script, h.errors⟩
  · rw [List.append_assoc, ← hqueue]
    exact hpushed
  · rw [hdelivered]
    exact List.filterMap_append.symm
  · change t.stats.countAll _ = DecapStats.countAll {} ((consumed ++ taken).filterMap t.dropOf)
    rw [hstats, List.filterMap_append, DecapStats.countAll, DecapStats.countAll,
      DecapStats.countAll, List.foldl_append]
  · have hle := h.queue_le
    rw [hqueue, List.length_append] at hle
    exact (Nat.le_add_left _ _).trans hle

/-- A waiting error is handed over. -/
theorem Ledger.returned {e : TransportError} (h : Ledger burst delivered errors t)
    (hdeferred : t.inner.deferred = some e) :
    Ledger burst delivered (errors ++ [e]) { t with inner.deferred := none } := by
  refine ⟨h.frames, h.queue_le, h.collected, h.script, ?_⟩
  have herrors := h.errors
  rw [hdeferred, Option.toList_some] at herrors
  exact (List.append_nil _).trans herrors

/-- The driver is asked with an empty queue; its error is returned or left waiting. -/
theorem Ledger.answered (h : Ledger burst delivered errors t) (hqueue : t.pending = [])
    (hdeferred : t.inner.deferred = none) {returned : List TransportError}
    {waiting : Option TransportError}
    (hfailure : returned ++ waiting.toList = t.inner.driver.answer.1.failure.toList) :
    Ledger burst delivered (errors ++ returned) { t with
      inner := ⟨t.inner.driver.answer.2, waiting⟩
      pending := t.inner.driver.answer.1.pushed } := by
  obtain ⟨consumed, hpushed, hdelivered, hstats⟩ := h.frames
  rw [hqueue, List.append_nil] at hpushed
  refine ⟨⟨consumed, ?_, hdelivered, hstats⟩, ?_, h.collected, ?_, ?_⟩
  · change t.inner.driver.answer.2.script.given.flatMap Answer.pushed = _
    rw [Scripted.given_answer, List.flatMap_append, List.flatMap_singleton, ← hpushed]
    rfl
  · by_cases hempty : t.inner.driver.answer.1.pushed = []
    · rw [hempty]
      exact Nat.zero_le burst
    · exact h.script _ (Scripted.answer_mem hempty).1
  · exact fun a ha ↦ h.script a (Script.mem_coming_of_next ha)
  · have herrors := h.errors
    rw [hdeferred, Option.toList_none, List.append_nil] at herrors
    change errors ++ returned ++ waiting.toList =
      t.inner.driver.answer.2.script.given.filterMap Answer.failure
    rw [Scripted.given_answer, List.filterMap_append, List.append_assoc, hfailure, herrors]
    cases hfail : t.inner.driver.answer.1.failure <;> simp [hfail, UdpDecap.given]

/-- A burst taken with an empty queue: an error, the waiting one if there is one; or the ring is
empty; or frames for the queue. -/
theorem Ledger.burst_cases (h : Ledger burst delivered errors t) (hqueue : t.pending = []) :
    (∃ e inner, L2Recv.recvBurst t.inner t.collected = (.error e, inner, t.collected) ∧
      Ledger burst delivered (errors ++ [e]) { t with inner := inner } ∧ inner.deferred = none ∧
      (∃ further, inner.driver.script.given = t.given ++ further) ∧
      ∀ e', t.inner.deferred = some e' → e = e' ∧ inner.driver.script.given = t.given) ∨
    (∃ a inner, L2Recv.recvBurst t.inner t.collected = (.ok 0, inner, t.collected) ∧
      Ledger burst delivered errors { t with inner := inner } ∧ t.inner.deferred = none ∧
      inner.driver.script.given = t.given ++ [a] ∧ a.polled = .ok .idle) ∨
    ∃ a inner n, L2Recv.recvBurst t.inner t.collected = (.ok (n + 1), inner, ⟨a.pushed, burst⟩) ∧
      Ledger burst delivered errors { t with inner := inner, pending := a.pushed } ∧
      t.inner.deferred = none ∧ inner.driver.script.given = t.given ++ [a] ∧
      inner.driver.script.coming.length < t.inner.driver.script.coming.length := by
  cases hdeferred : t.inner.deferred with
  | some e =>
      refine Or.inl ⟨e, _, BypassTransport.pollFrames_deferred hdeferred _,
        h.returned hdeferred, rfl, ⟨[], (List.append_nil _).symm⟩, ?_⟩
      rintro _ ⟨⟩
      exact ⟨rfl, rfl⟩
  | none =>
      have hgiven := t.inner.driver.given_answer
      obtain ⟨hpoll, hidle⟩ | ⟨e, hfailure, hpushed, hpoll⟩ :=
        BypassTransport.pollFrames_cases hdeferred t.collected
      · have hledger := h.answered hqueue hdeferred (List.nil_append _)
        rw [List.append_nil] at hledger
        by_cases hpushed : t.inner.driver.answer.1.pushed = []
        · rw [hpushed, ← hqueue] at hledger
          rw [hpushed, List.append_nil] at hpoll
          exact Or.inr (Or.inl ⟨_, _, hpoll, hledger, rfl, hgiven, hidle hpushed⟩)
        · obtain ⟨n, hn⟩ := Nat.exists_eq_succ_of_ne_zero
            (List.length_pos_iff.mpr hpushed).ne'
          have hfilled : { t.collected with
              frames := t.collected.frames ++ t.inner.driver.answer.1.pushed } =
              (⟨t.inner.driver.answer.1.pushed, burst⟩ : FrameBatch F) := by
            rw [h.collected]
            rfl
          rw [hn, hfilled] at hpoll
          exact Or.inr (Or.inr ⟨_, _, n, hpoll, hledger, rfl, hgiven,
            (Scripted.answer_mem hpushed).2⟩)
      · have hsplit : [e] ++ (none : Option TransportError).toList =
            t.inner.driver.answer.1.failure.toList := by
          rw [hfailure]
          rfl
        have hledger := h.answered hqueue hdeferred hsplit
        rw [hpushed, ← hqueue] at hledger
        refine Or.inl ⟨e, _, hpoll, hledger, rfl, ⟨_, hgiven⟩, ?_⟩
        rintro _ ⟨⟩

/-! ## One call -/

/-- The errors among the results of calls. -/
def errorOf : Except TransportError ℕ → List TransportError
  | .ok _ => []
  | .error e => [e]

/-- What one call from `t` to `t'` returns, with the frames it pushed. -/
structure Returns (t t' : ScriptedDecap F) (result : Except TransportError ℕ)
    (fresh : List (DecapFrame F)) : Prop where
  further : ∃ further, t'.given = t.given ++ further
  counted : ∀ n, result = .ok n → n = fresh.length
  failed : ∀ e, result = .error e →
    fresh = [] ∧ t'.pending = [] ∧ t'.inner.deferred = none
  idle : result = .ok 0 → t'.pending = [] ∧
    ∃ earlier a, t'.given = t.given ++ (earlier ++ [a]) ∧ a.polled = .ok .idle
  waiting : ∀ e, t.inner.deferred = some e → t'.given = t.given ∧
    (result = .error e ∨ t'.inner.deferred = some e ∧ t'.pending.length < t.pending.length)

/-- A call that has more turns than the script has answers returns, and keeps the ledger. -/
theorem fill_returns (fuel : ℕ) :
    ∀ {t : ScriptedDecap F} {out : FrameBatch (DecapFrame F)} {delivered : List (DecapFrame F)},
      Ledger burst delivered errors t → 0 < out.spare →
      t.inner.driver.script.coming.length < fuel →
      ∃ result t' fresh,
        t.fill fuel out = some (result, t', { out with frames := out.frames ++ fresh }) ∧
        Ledger burst (delivered ++ fresh) (errors ++ errorOf result) t' ∧
        Returns t t' result fresh ∧ t'.dstPort = t.dstPort ∧ t'.dstIp = t.dstIp := by
  induction fuel with
  | zero => exact fun _ _ hfuel ↦ (Nat.not_lt_zero _ hfuel).elim
  | succ fuel ih =>
      intro t out delivered h hroom hfuel
      obtain ⟨taken, rest, hqueue, hdeliver, hrest⟩ := t.deliver_eq out
      have hledger := h.deliver hqueue
      unfold UdpDecap.fill
      rw [hdeliver]
      dsimp only
      by_cases hfresh : taken.filterMap t.accept = []
      · -- everything taken was filtered, so the queue is empty and the source is read
        have hempty : rest = [] := by
          refine hrest.resolve_right fun hfull ↦ ?_
          unfold FrameBatch.spare at hroom
          rw [hfresh, List.length_nil] at hfull
          omega
        subst hempty
        rw [hfresh, List.append_nil] at hledger
        rw [hfresh, if_neg (by simp [hroom.ne'])]
        obtain ⟨e, inner, hburst, hnext, hnone, hfurther, hwaiting⟩ |
          ⟨a, inner, hburst, hnext, hnone, hgiven, hidle⟩ |
          ⟨a, inner, n, hburst, hnext, hnone, hgiven, hless⟩ := hledger.burst_cases rfl
        · rw [hburst]
          refine ⟨.error e, _, [], rfl, ?_, ⟨hfurther, ?_, ?_, ?_, ?_⟩, rfl, rfl⟩
          · rw [List.append_nil]
            exact hnext
          · rintro n ⟨⟩
          · exact fun _ _ ↦ ⟨rfl, rfl, hnone⟩
          · rintro ⟨⟩
          · intro e' he'
            obtain ⟨rfl, hgiven⟩ := hwaiting e' he'
            exact ⟨hgiven, Or.inl rfl⟩
        · rw [hburst]
          refine ⟨.ok 0, _, [], rfl, ?_, ⟨⟨[a], hgiven⟩, ?_, ?_, ?_, ?_⟩, rfl, rfl⟩
          · rw [List.append_nil, errorOf, List.append_nil]
            exact hnext
          · rintro n ⟨⟩
            rfl
          · rintro e ⟨⟩
          · exact fun _ ↦ ⟨rfl, [], a, hgiven, hidle⟩
          · intro e he
            cases hnone.symm.trans he
        · rw [hburst]
          obtain ⟨result, t', fresh, hfill, hledger', hreturns, hsame⟩ :=
            ih hnext hroom (lt_of_lt_of_le hless (Nat.lt_succ_iff.mp hfuel))
          have hjoin : ∀ later, t'.given = inner.driver.script.given ++ later →
              t'.given = t.given ++ (a :: later) := by
            intro later hlater
            calc t'.given = t.given ++ [a] ++ later := by rw [hlater, hgiven]; rfl
              _ = t.given ++ (a :: later) := List.append_assoc _ _ _
          obtain ⟨further, hfurther⟩ := hreturns.further
          refine ⟨result, t', fresh, ?_, hledger',
            ⟨⟨_, hjoin _ hfurther⟩, hreturns.counted, hreturns.failed, ?_, ?_⟩, hsame⟩
          · rw [← hfill, h.collected]
            simp only [List.nil_append, List.append_nil]
          · intro hzero
            obtain ⟨hpending, earlier, a', hgiven', hidle⟩ := hreturns.idle hzero
            exact ⟨hpending, a :: earlier, a', hjoin _ hgiven', hidle⟩
          · intro e he
            cases hnone.symm.trans he
      · have hpos : 0 < (taken.filterMap t.accept).length := List.length_pos_iff.mpr hfresh
        rw [if_pos (Or.inl hpos)]
        refine ⟨_, _, _, rfl, ?_, ⟨⟨[], (List.append_nil _).symm⟩, ?_, ?_, ?_, ?_⟩, rfl, rfl⟩
        · simpa [errorOf] using hledger
        · rintro n ⟨⟩
          rfl
        · rintro e ⟨⟩
        · intro hzero
          have := Except.ok.inj hzero
          omega
        · refine fun e he ↦ ⟨rfl, Or.inr ⟨he, ?_⟩⟩
          have htaken : 0 < taken.length := hpos.trans_le (List.length_filterMap_le _ _)
          rw [hqueue, List.length_append]
          exact Nat.lt_add_of_pos_left htaken

end ScriptedDecap

/-! ## Whole runs -/

/-- One call: what the driver answered in it, what it returned and the frames it pushed. -/
structure BurstCall (F : Type) where
  given : List (Answer F)
  result : Except TransportError ℕ
  fresh : List (DecapFrame F)

/-- Decapsulation together with the calls made so far. -/
structure Relay (F : Type) where
  decap : ScriptedDecap F
  calls : List (BurstCall F)

namespace Relay

omit [AsRef F] in
def start (script : List (Answer F)) (pool : PoolStats) (dstPort : ℕ) (dstIp : Option Ipv4Addr)
    (burst : ℕ) : Relay F :=
  ⟨.new (.new ⟨⟨script, []⟩, pool⟩) dstPort dstIp burst, []⟩

/-- One call with the caller's batch `out`. -/
def next (r : Relay F) (out : FrameBatch (DecapFrame F)) : Option (Relay F) :=
  (r.decap.recvBurst (r.decap.inner.driver.script.coming.length + 1) out).map fun q ↦
    ⟨q.2.1, r.calls ++ [⟨q.2.1.given.drop r.decap.given.length, q.1,
      q.2.2.frames.drop out.frames.length⟩]⟩

def machine (F : Type) [AsRef F] : Machine (Relay F) (FrameBatch (DecapFrame F)) := .ofNext next

omit [AsRef F] in
/-- Datagrams delivered so far. -/
def delivered (r : Relay F) : List (DecapFrame F) := r.calls.flatMap BurstCall.fresh

omit [AsRef F] in
/-- Errors returned so far. -/
def errors (r : Relay F) : List TransportError :=
  r.calls.flatMap fun call ↦ ScriptedDecap.errorOf call.result

/-- The batch has room. -/
def HasRoom (_ : Relay F) (out : FrameBatch (DecapFrame F)) : Prop := 0 < out.spare

variable {burst dstPort : ℕ} {dstIp : Option Ipv4Addr} {r r' : Relay F}

/-- The ledger of a run, with the filter it was started with. -/
structure Kept (burst dstPort : ℕ) (dstIp : Option Ipv4Addr) (r : Relay F) : Prop where
  ledger : ScriptedDecap.Ledger burst r.delivered r.errors r.decap
  port : r.decap.dstPort = dstPort
  ip : r.decap.dstIp = dstIp

theorem Kept.start {script : List (Answer F)} (pool : PoolStats)
    (hfits : ∀ a ∈ script, a.pushed.length ≤ burst) :
    Kept burst dstPort dstIp (start script pool dstPort dstIp burst) :=
  ⟨⟨⟨[], rfl, rfl, rfl⟩, Nat.zero_le burst, rfl, hfits, rfl⟩, rfl, rfl⟩

theorem Kept.next (h : Kept burst dstPort dstIp r) {out : FrameBatch (DecapFrame F)}
    (hroom : 0 < out.spare) :
    ∃ r' call, r.next out = some r' ∧ Kept burst dstPort dstIp r' ∧
      r'.calls = r.calls ++ [call] ∧ r'.decap.given = r.decap.given ++ call.given ∧
      ScriptedDecap.Returns r.decap r'.decap call.result call.fresh := by
  obtain ⟨result, t', fresh, hfill, hledger, hreturns, hport, hip⟩ :=
    ScriptedDecap.fill_returns _ h.ledger hroom (Nat.lt_succ_self _)
  obtain ⟨further, hfurther⟩ := hreturns.further
  refine ⟨⟨t', r.calls ++ [⟨further, result, fresh⟩]⟩, ⟨further, result, fresh⟩, ?_, ⟨?_, ?_, ?_⟩,
    rfl, hfurther, hreturns⟩
  · rw [Relay.next, UdpDecap.recvBurst, hfill, Option.map_some, hfurther, List.drop_left,
      List.drop_left]
  · rw [delivered, errors, List.flatMap_append, List.flatMap_append, List.flatMap_singleton,
      List.flatMap_singleton]
    exact hledger
  · exact hport.trans h.port
  · exact hip.trans h.ip

omit [AsRef F] in
theorem errors_of_calls {call : BurstCall F} (hcalls : r'.calls = r.calls ++ [call]) :
    r'.errors = r.errors ++ ScriptedDecap.errorOf call.result := by
  rw [errors, hcalls, List.flatMap_append, List.flatMap_singleton]
  rfl

/-- Any number of calls with room can be made. -/
theorem Kept.follow (outs : List (FrameBatch (DecapFrame F))) :
    ∀ {r : Relay F}, Kept burst dstPort dstIp r → (∀ out ∈ outs, 0 < out.spare) →
      ∃ r', Machine.follow Relay.next r outs = some r' ∧ r.errors <+: r'.errors := by
  induction outs with
  | nil => exact fun _ _ ↦ ⟨_, rfl, List.prefix_rfl⟩
  | cons out outs ih =>
      intro r h hroom
      obtain ⟨r₁, call, hnext, hkept, hcalls, -⟩ := h.next (hroom out List.mem_cons_self)
      obtain ⟨r', hfollow, hprefix⟩ := ih hkept fun o ho ↦ hroom o (List.mem_cons_of_mem _ ho)
      refine ⟨r', ?_, ?_⟩
      · rw [Machine.follow, hnext]
        exact hfollow
      · rw [errors_of_calls hcalls] at hprefix
        exact (List.prefix_append _ _).trans hprefix

/-- A waiting error is the next one returned, after at most as many calls as frames are queued. -/
theorem Kept.returned {e : TransportError} (outs : List (FrameBatch (DecapFrame F))) :
    ∀ {r : Relay F}, Kept burst dstPort dstIp r → r.decap.inner.deferred = some e →
      (∀ out ∈ outs, 0 < out.spare) → r.decap.pending.length < outs.length →
      ∃ r', Machine.follow Relay.next r outs = some r' ∧ r.errors ++ [e] <+: r'.errors := by
  induction outs with
  | nil => exact fun _ _ _ hlt ↦ (Nat.not_lt_zero _ hlt).elim
  | cons out outs ih =>
      intro r h hdeferred hroom hlt
      have hrest : ∀ o ∈ outs, 0 < o.spare := fun o ho ↦ hroom o (List.mem_cons_of_mem _ ho)
      obtain ⟨r₁, call, hnext, hkept, hcalls, -, hreturns⟩ := h.next (hroom out List.mem_cons_self)
      have herrors := errors_of_calls hcalls
      obtain ⟨-, hresult | ⟨hwaiting, hless⟩⟩ := hreturns.waiting e hdeferred
      · obtain ⟨r', hfollow, hprefix⟩ := hkept.follow outs hrest
        refine ⟨r', ?_, ?_⟩
        · rw [Machine.follow, hnext]
          exact hfollow
        · rw [herrors, hresult] at hprefix
          exact hprefix
      · rw [List.length_cons] at hlt
        obtain ⟨r', hfollow, hprefix⟩ := ih hkept hwaiting hrest (by omega)
        refine ⟨r', ?_, ?_⟩
        · rw [Machine.follow, hnext]
          exact hfollow
        · cases hresult : call.result with
          | ok n =>
              rw [herrors, hresult, ScriptedDecap.errorOf, List.append_nil] at hprefix
              exact hprefix
          | error e' =>
              -- an error is returned only with none left waiting
              cases (hreturns.failed e' hresult).2.2.symm.trans hwaiting

end Relay

/-- Nothing is lost or reordered through the bypass shell and decapsulation.  After any calls
with room, over a driver whose pushes fit: what was delivered and what is still queued is the
filter of what the driver pushed; the counters are, modulo `2 ^ 64`, those of the frames taken from
the queue and dropped; the errors returned, and the one waiting, are those of the driver.  The
next call returns as `Returns` says, and a waiting error comes out as soon as the queue is used
up. -/
theorem decap_lossless {script : List (Answer F)} {pool : PoolStats} {dstPort burst : ℕ}
    {dstIp : Option Ipv4Addr} {r : Relay F} (hfits : ∀ a ∈ script, a.pushed.length ≤ burst)
    (hrun : (Relay.machine F).Run Relay.HasRoom
      (Relay.start script pool dstPort dstIp burst) r) :
    r.delivered ++ r.decap.pending.filterMap (accept dstPort dstIp) =
        r.decap.pushed.filterMap (accept dstPort dstIp) ∧
      r.decap.pending.length ≤ burst ∧ r.decap.collected.spare = burst ∧
      (∃ consumed, r.decap.pushed = consumed ++ r.decap.pending ∧
        (∀ reason, r.decap.stats.of reason =
          UInt64.ofNat ((consumed.filterMap (dropOf dstPort dstIp)).count reason)) ∧
        r.decap.stats.total =
          UInt64.ofNat (consumed.filterMap (dropOf dstPort dstIp)).length) ∧
      r.errors ++ r.decap.inner.deferred.toList = r.decap.given.filterMap Answer.failure ∧
      (∀ out : FrameBatch (DecapFrame F), 0 < out.spare → ∃ r' call, r.next out = some r' ∧
        r'.calls = r.calls ++ [call] ∧ r'.decap.given = r.decap.given ++ call.given ∧
        ScriptedDecap.Returns r.decap r'.decap call.result call.fresh) ∧
      ∀ (e : TransportError) (outs : List (FrameBatch (DecapFrame F))),
        r.decap.inner.deferred = some e → (∀ out ∈ outs, 0 < out.spare) →
        r.decap.pending.length < outs.length →
        ∃ r', Machine.follow Relay.next r outs = some r' ∧ r.errors ++ [e] <+: r'.errors := by
  have hkept : r.Kept burst dstPort dstIp := by
    refine hrun.invariant (I := Relay.Kept burst dstPort dstIp) (.start pool hfits) ?_
    intro r out r' h hroom hstep
    obtain ⟨r₁, -, hnext, hkept, -⟩ := h.next hroom
    cases hnext.symm.trans hstep
    exact hkept
  obtain ⟨consumed, hpushed, hdelivered, hstats⟩ := hkept.ledger.frames
  rw [UdpDecap.accept, hkept.port, hkept.ip] at hdelivered
  rw [UdpDecap.dropOf, hkept.port, hkept.ip] at hstats
  refine ⟨?_, hkept.ledger.queue_le, ?_, ⟨consumed, hpushed, ?_, ?_⟩, hkept.ledger.errors, ?_, ?_⟩
  · rw [hdelivered, hpushed, List.filterMap_append]
  · rw [hkept.ledger.collected]
    rfl
  · intro reason
    rw [hstats, DecapStats.of_countAll]
    cases reason <;> exact UInt64.zero_add _
  · rw [hstats, DecapStats.total_countAll]
    exact UInt64.zero_add _
  · intro out hroom
    obtain ⟨r', call, hnext, -, hcalls, hgiven, hreturns⟩ := hkept.next hroom
    exact ⟨r', call, hnext, hcalls, hgiven, hreturns⟩
  · exact fun e outs hdeferred hroom hlt ↦ hkept.returned outs hdeferred hroom hlt

/-- The driver pushes a datagram and a frame of no known kind, then fails. -/
def sampleScript : List (Answer (List UInt8)) :=
  [⟨[sampleDatagram.encode [], []], .error (.io .other), ⟨2, 4⟩, by rintro _ ⟨⟩⟩]

/-- With room for one, the first call delivers the datagram; the frame behind it is queued and
the error waits.  Two calls later it has come out. -/
theorem decap_lossless_failing :
    ∃ r r' : Relay (List UInt8),
      Machine.follow Relay.next (Relay.start sampleScript ⟨0, 4⟩ 30001 none 2) [⟨[], 1⟩] = some r ∧
      r.delivered.map AsRef.asRef = [[104, 105]] ∧ r.decap.pending = [[]] ∧
      Machine.follow Relay.next r [⟨[], 1⟩, ⟨[], 1⟩] = some r' ∧
      r.errors ++ [.io .other] <+: r'.errors := by
  have hend : ∃ r ∈ Machine.follow Relay.next (Relay.start sampleScript ⟨0, 4⟩ 30001 none 2)
        [⟨[], 1⟩],
      r.delivered.map AsRef.asRef = [[104, 105]] ∧ r.decap.pending = [[]] ∧
      r.decap.inner.deferred = some (.io .other) := by
    decide +kernel
  obtain ⟨r, hr, hdelivered, hpending, hdeferred⟩ := hend
  have hrun : (Relay.machine (List UInt8)).Run Relay.HasRoom
      (Relay.start sampleScript ⟨0, 4⟩ 30001 none 2) r :=
    .of_follow (Machine.allowedAlong_of_forall_mem _ _ (by simp [Relay.HasRoom, FrameBatch.spare]))
      hr
  have hfits : ∀ a ∈ sampleScript, a.pushed.length ≤ 2 := by decide
  obtain ⟨-, -, -, -, -, -, hreturned⟩ := decap_lossless hfits hrun
  obtain ⟨r', hfollow, herrors⟩ := hreturned _ [⟨[], 1⟩, ⟨[], 1⟩] hdeferred
    (by simp [FrameBatch.spare]) (by simp [hpending])
  exact ⟨r, r', hr, hdelivered, hpending, hfollow, herrors⟩

end Transport
