import Mathlib

/-!
# Transition systems and their runs

A labelled transition system, the runs of it in which every event is allowed in
the state where it happens, and the invariant rule: a property of the first
state that every allowed step keeps holds in every state a run reaches.
-/

/-- Labelled transition system on states `σ` with events `ε`. -/
structure Machine (σ ε : Type*) where
  step : σ → ε → σ → Prop

namespace Machine

variable {σ ε : Type*} {M : Machine σ ε} {allowed : σ → ε → Prop} {s t u : σ}

/-- `M.Run allowed s t`: some run leads from `s` to `t`, and each of its events is
allowed in the state where it happens. -/
inductive Run (M : Machine σ ε) (allowed : σ → ε → Prop) (s : σ) : σ → Prop
  | refl : Run M allowed s s
  | tail {t u : σ} (e : ε) : Run M allowed s t → allowed t e → M.step t e u →
      Run M allowed s u

theorem Run.invariant {I : σ → Prop} (hinit : I s)
    (hstep : ∀ t e u, I t → allowed t e → M.step t e u → I u)
    (hrun : M.Run allowed s t) : I t := by
  induction hrun with
  | refl => exact hinit
  | tail e _ hallowed hs ih => exact hstep _ e _ ih hallowed hs

/-- An invariant that is kept only where another invariant holds. -/
theorem Run.invariant_of {I J : σ → Prop} (hJ : ∀ t, M.Run allowed s t → J t) (hinit : I s)
    (hstep : ∀ t e u, J t → I t → allowed t e → M.step t e u → I u)
    (hrun : M.Run allowed s t) : I t := by
  induction hrun with
  | refl => exact hinit
  | tail e hrun hallowed hs ih => exact hstep _ e _ (hJ _ hrun) ih hallowed hs

theorem Run.mono {allowed' : σ → ε → Prop} (h : ∀ t e, allowed t e → allowed' t e)
    (hrun : M.Run allowed s t) : M.Run allowed' s t := by
  induction hrun with
  | refl => exact .refl
  | tail e _ hallowed hs ih => exact .tail e ih (h _ e hallowed) hs

theorem Run.trans (hst : M.Run allowed s t) (htu : M.Run allowed t u) :
    M.Run allowed s u := by
  induction htu with
  | refl => exact hst
  | tail e _ hallowed hs ih => exact .tail e ih hallowed hs

theorem Run.single {e : ε} (hallowed : allowed s e) (hs : M.step s e t) :
    M.Run allowed s t := .tail e .refl hallowed hs

/-! ## Machines given by a function -/

/-- Machine of a deterministic step function; `none` means the event is not possible. -/
def ofNext (next : σ → ε → Option σ) : Machine σ ε where
  step s e t := next s e = some t

/-- State after a list of events, if all of them are possible. -/
def follow (next : σ → ε → Option σ) : σ → List ε → Option σ
  | s, [] => some s
  | s, e :: es => (next s e).bind fun t ↦ follow next t es

/-- Every event of the list is allowed in the state where it happens. -/
def AllowedAlong (next : σ → ε → Option σ) (allowed : σ → ε → Prop) : σ → List ε → Prop
  | _, [] => True
  | s, e :: es => allowed s e ∧ ∀ t ∈ next s e, AllowedAlong next allowed t es

instance decidableAllowedAlong (next : σ → ε → Option σ) (allowed : σ → ε → Prop)
    [∀ s e, Decidable (allowed s e)] :
    ∀ (s : σ) (es : List ε), Decidable (AllowedAlong next allowed s es)
  | _, [] => .isTrue trivial
  | s, e :: es =>
      have := fun t ↦ decidableAllowedAlong next allowed t es
      inferInstanceAs (Decidable (_ ∧ ∀ t ∈ next s e, _))

theorem allowedAlong_of_forall_mem {next : σ → ε → Option σ} :
    ∀ (s : σ) (es : List ε), (∀ e ∈ es, ∀ s, allowed s e) → AllowedAlong next allowed s es
  | _, [], _ => trivial
  | s, e :: es, h => ⟨h e List.mem_cons_self s, fun t _ ↦
      allowedAlong_of_forall_mem t es fun e he ↦ h e (List.mem_cons_of_mem _ he)⟩

theorem allowedAlong_of_forall {next : σ → ε → Option σ} (h : ∀ s e, allowed s e) (s : σ)
    (es : List ε) : AllowedAlong next allowed s es :=
  allowedAlong_of_forall_mem s es fun e _ s ↦ h s e

theorem Run.of_follow {next : σ → ε → Option σ} {es : List ε} :
    ∀ {s : σ}, AllowedAlong next allowed s es → follow next s es = some t →
      (ofNext next).Run allowed s t := by
  induction es with
  | nil =>
      intro s _ h
      cases h
      exact .refl
  | cons e es ih =>
      intro s hallowed h
      obtain ⟨u, hstep, hrest⟩ := Option.bind_eq_some_iff.mp h
      exact (Run.single (M := ofNext next) hallowed.1 hstep).trans (ih (hallowed.2 u hstep) hrest)

/-- Events that end in a state with a property are a run to one. -/
theorem Run.exists_of_follow {next : σ → ε → Option σ} {P : σ → Prop} (es : List ε)
    (h : ∃ t ∈ follow next s es, P t) : ∃ t, (ofNext next).Run (fun _ _ ↦ True) s t ∧ P t := by
  obtain ⟨t, ht, hP⟩ := h
  exact ⟨t, .of_follow (allowedAlong_of_forall (fun _ _ ↦ trivial) s es) ht, hP⟩

end Machine
