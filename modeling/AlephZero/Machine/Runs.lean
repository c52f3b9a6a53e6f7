import Mathlib.Init

/-!
# Transition systems and their runs

A system is given by its initial states and its steps. What it can reach is what a
run of any length can; a property of every state reached is proved by an invariant
that holds at first and that each step keeps.

## What is proved

* `IsInvariant.reach` — an invariant holds of every state reached.
* `reach_mono` — a system with fewer steps reaches no more.
* `IsRun.reach` — what a run goes through is reached.
-/

/-- Initial states and steps. -/
structure TransitionSystem (σ : Type*) where
  /-- A state is initial. -/
  init : σ → Prop
  /-- One state leads to another. -/
  step : σ → σ → Prop

namespace TransitionSystem

variable {σ : Type*} {S T : TransitionSystem σ} {I : σ → Prop} {s : σ}

/-- The states that runs reach. -/
inductive Reach (S : TransitionSystem σ) : σ → Prop where
  | init {s : σ} : S.init s → Reach S s
  | step {s t : σ} : Reach S s → S.step s t → Reach S t

/-- A property holds at first, and each step keeps it. -/
structure IsInvariant (S : TransitionSystem σ) (I : σ → Prop) : Prop where
  init : ∀ s, S.init s → I s
  step : ∀ s t, I s → S.step s t → I t

/-- An invariant holds of every state reached. -/
theorem IsInvariant.reach (h : S.IsInvariant I) (hs : S.Reach s) : I s := by
  induction hs with
  | init hi => exact h.init _ hi
  | step _ hst ih => exact h.step _ _ ih hst

/-- A system with fewer steps reaches no more. -/
theorem reach_mono (hi : ∀ s, S.init s → T.init s) (hstep : ∀ s t, S.step s t → T.step s t)
    (hs : S.Reach s) : T.Reach s := by
  induction hs with
  | init h => exact .init (hi _ h)
  | step _ hst ih => exact .step ih (hstep _ _ hst)

/-- What a run goes through, the last state first. -/
inductive IsRun (S : TransitionSystem σ) : List σ → Prop where
  | init {s : σ} : S.init s → IsRun S [s]
  | step {s t : σ} {past : List σ} : IsRun S (s :: past) → S.step s t → IsRun S (t :: s :: past)

/-- What a run goes through is reached. -/
theorem IsRun.reach {l : List σ} (h : S.IsRun l) : ∀ s ∈ l, S.Reach s := by
  induction h with
  | init hi => exact List.forall_mem_singleton.mpr (.init hi)
  | step _ hst ih => exact List.forall_mem_cons.mpr ⟨.step (ih _ List.mem_cons_self) hst, ih⟩

end TransitionSystem
