import PolarisTrade.IndexPool
import PolarisTrade.Lib.Script
import PolarisTrade.Transport

/-!
# Shell over a kernel-bypass driver

`BypassTransport` wraps a driver: a driver out of buffers with nothing pushed is `PoolExhausted`,
and an error met after frames were pushed waits for the next call.  The drivers here play a
script: one answer a call, after the last one the ring stays empty.
-/

namespace Transport

/-- Outcome of one `pollFrames`. -/
inductive Polled
  | frames (n : ℕ)
  | idle
  | exhausted
  deriving DecidableEq

class Driver (D : Type) (F : outParam Type) where
  pollFrames : D → FrameBatch F → Except TransportError Polled × D × FrameBatch F
  poolStats : D → PoolStats

/-- Receive of whole Ethernet frames. -/
class L2Recv (S : Type) (F : outParam Type) where
  recvBurst : S → FrameBatch F → Except TransportError ℕ × S × FrameBatch F

structure BypassTransport (D : Type) where
  driver : D
  deferred : Option TransportError

namespace BypassTransport

variable {D F : Type}

def new (driver : D) : BypassTransport D := ⟨driver, none⟩

variable [Driver D F]

/-- Frames never travel with an error: one met after pushes waits in `deferred`. -/
def pollFrames (t : BypassTransport D) (out : FrameBatch F) :
    Except TransportError ℕ × BypassTransport D × FrameBatch F :=
  match t.deferred with
  | some error => (.error error, { t with deferred := none }, out)
  | none =>
      let (polled, driver, filled) := Driver.pollFrames t.driver out
      let t := { t with driver := driver }
      let pushed := filled.frames.length - out.frames.length
      match polled with
      | .ok .exhausted =>
          if pushed = 0 then
            let stats := Driver.poolStats driver
            (.error (.poolExhausted stats.inUse stats.capacity), t, filled)
          else (.ok pushed, t, filled)
      | .ok _ => (.ok pushed, t, filled)
      | .error error =>
          if 0 < pushed then (.ok pushed, { t with deferred := some error }, filled)
          else (.error error, t, filled)

instance : L2Recv (BypassTransport D) F := ⟨pollFrames⟩

end BypassTransport

/-! ## Drivers that play a script -/

/-- What the outcome says of the frames pushed. -/
def Polled.Agrees (pushed : ℕ) : Polled → Prop
  | .frames n => n = pushed ∧ 0 < n
  | .idle => pushed = 0
  | .exhausted => True

/-- One call of a driver: the frames it pushes, what it returns and its pool afterwards. -/
structure Answer (F : Type) where
  pushed : List F
  polled : Except TransportError Polled
  pool : PoolStats
  agrees : ∀ outcome, polled = .ok outcome → outcome.Agrees pushed.length

variable {F : Type}

namespace Answer

def idle (pool : PoolStats) : Answer F where
  pushed := []
  polled := .ok .idle
  pool := pool
  agrees := by rintro _ ⟨⟩; rfl

/-- The error the shell owes its caller for this answer. -/
def failure (a : Answer F) : Option TransportError :=
  match a.polled with
  | .error e => some e
  | .ok .exhausted =>
      if a.pushed = [] then some (.poolExhausted a.pool.inUse a.pool.capacity) else none
  | .ok _ => none

end Answer

/-- Driver that plays a script, then has an empty ring. -/
structure Scripted (F : Type) where
  script : Script (Answer F)
  pool : PoolStats

namespace Scripted

def answer (d : Scripted F) : Answer F × Scripted F :=
  let (a, script) := d.script.next (.idle d.pool)
  (a, ⟨script, a.pool⟩)

instance : Driver (Scripted F) F where
  pollFrames d out :=
    (d.answer.1.polled, d.answer.2, { out with frames := out.frames ++ d.answer.1.pushed })
  poolStats d := d.pool

theorem given_answer (d : Scripted F) :
    d.answer.2.script.given = d.script.given ++ [d.answer.1] :=
  d.script.given_next _

theorem pool_answer (d : Scripted F) : d.answer.2.pool = d.answer.1.pool := rfl

/-- An answer that pushed frames was in the script. -/
theorem answer_mem {d : Scripted F} (h : d.answer.1.pushed ≠ []) :
    d.answer.1 ∈ d.script.coming ∧ d.answer.2.script.coming.length < d.script.coming.length := by
  refine Script.next_mem fun hidle ↦ h ?_
  change (d.script.next (.idle d.pool)).1.pushed = []
  rw [hidle]
  rfl

end Scripted

namespace BypassTransport

/-- A waiting error is returned before the driver is asked. -/
theorem pollFrames_deferred {D : Type} [Driver D F] {t : BypassTransport D} {e : TransportError}
    (h : t.deferred = some e) (out : FrameBatch F) :
    t.pollFrames out = (.error e, { t with deferred := none }, out) := by
  unfold pollFrames
  rw [h]

/-- With no error waiting the driver is asked once.  Either its frames are handed on, with an
error left waiting, or it pushed nothing and its error is returned. -/
theorem pollFrames_cases {t : BypassTransport (Scripted F)} (h : t.deferred = none)
    (out : FrameBatch F) :
    (t.pollFrames out = (.ok t.driver.answer.1.pushed.length,
        ⟨t.driver.answer.2, t.driver.answer.1.failure⟩,
        { out with frames := out.frames ++ t.driver.answer.1.pushed }) ∧
      (t.driver.answer.1.pushed = [] → t.driver.answer.1.polled = .ok .idle)) ∨
    ∃ e, t.driver.answer.1.failure = some e ∧ t.driver.answer.1.pushed = [] ∧
      t.pollFrames out = (.error e, ⟨t.driver.answer.2, none⟩, out) := by
  have hpool : Driver.poolStats t.driver.answer.2 = t.driver.answer.1.pool := t.driver.pool_answer
  have hcount : ({ out with frames := out.frames ++ t.driver.answer.1.pushed } :
      FrameBatch F).frames.length - out.frames.length = t.driver.answer.1.pushed.length := by
    rw [List.length_append, Nat.add_sub_cancel_left]
  have hagrees := t.driver.answer.1.agrees
  unfold pollFrames Answer.failure
  rw [h]
  dsimp only [Driver.pollFrames]
  rw [hcount, hpool]
  cases hpolled : t.driver.answer.1.polled with
  | error e =>
      by_cases hpushed : t.driver.answer.1.pushed = []
      · exact Or.inr ⟨e, rfl, hpushed, by simp [hpushed]⟩
      · exact Or.inl ⟨by simp [List.length_pos_iff.mpr hpushed], fun h ↦ (hpushed h).elim⟩
  | ok outcome =>
      have hsays := hagrees outcome hpolled
      cases outcome with
      | exhausted =>
          by_cases hpushed : t.driver.answer.1.pushed = []
          · exact Or.inr ⟨_, if_pos hpushed, hpushed, by simp [hpushed]⟩
          · exact Or.inl ⟨by simp [hpushed], fun h ↦ (hpushed h).elim⟩
      | idle =>
          exact Or.inl ⟨by simp, fun _ ↦ rfl⟩
      | frames n =>
          refine Or.inl ⟨by simp, fun hpushed ↦ ?_⟩
          obtain ⟨hn, hpos⟩ := hsays
          rw [hpushed, List.length_nil] at hn
          omega

end BypassTransport

end Transport
