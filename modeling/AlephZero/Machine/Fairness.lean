import AlephZero.Machine.Runs
import Mathlib.Data.Nat.Init
import Mathlib.Tactic.ByContra
import Mathlib.Tactic.Push

/-!
# Fair runs

Infinite runs of several agents, each step by one of them. A run is fair to an agent that gets
its turn, unless it has nothing to do.

## What is proved

* `Schedule.invariant` — an invariant holds all along a run.
* `Ends.eventually` — a condition ends if, while it holds, no step raises a measure, and there is
  always an agent whose step lowers it, the same one until it is lowered.
-/

/-- An infinite run: who does the steps, and the states. -/
structure Schedule {α σ : Type*} (step : α → σ → σ → Prop) where
  who : ℕ → α
  state : ℕ → σ
  next : ∀ n, step (who n) (state n) (state (n + 1))

namespace Schedule

variable {α σ : Type*} {step : α → σ → σ → Prop} {r : Schedule step} {P : σ → Prop} {n : ℕ}

/-- From any time on, the agent does a step, or has none to do. -/
def Fair (r : Schedule step) (a : α) : Prop := ∀ n, ∃ m, n ≤ m ∧ (r.who m = a ∨ ∀ t, ¬ step a (r.state m) t)

theorem invariant (hkeep : ∀ a s t, P s → step a s t → P t) (hn : P (r.state n)) :
    ∀ m, n ≤ m → P (r.state m) := by
  intro m hm
  induction m, hm using Nat.le_induction with
  | base => exact hn
  | succ m _ ih => exact hkeep _ _ _ ih (r.next m)

/-- A step in front of a run. -/
def cons (a : α) (s : σ) (r : Schedule step) (h : step a s (r.state 0)) : Schedule step where
  who
    | 0 => a
    | n + 1 => r.who n
  state
    | 0 => s
    | n + 1 => r.state n
  next
    | 0 => h
    | n + 1 => r.next n

theorem Fair.cons {a b : α} {s : σ} (hfair : r.Fair b) (h : step a s (r.state 0)) : (r.cons a s h).Fair b := by
  intro n
  obtain ⟨m, hm, hturn⟩ := hfair n
  exact ⟨m + 1, by omega, hturn⟩

/-- The same step for ever. -/
def const (a : α) (s : σ) (h : step a s s) : Schedule step := ⟨fun _ => a, fun _ => s, fun _ => h⟩

theorem fair_const {a b : α} {s : σ} (h : step a s s) (hnone : ∀ t, ¬ step b s t) : (const a s h).Fair b :=
  fun n => ⟨n, Nat.le_refl n, .inr hnone⟩

/-- While the condition holds, an agent can lower the measure, and nobody raises it. -/
structure Ends (step : α → σ → σ → Prop) (P : σ → Prop) (rank : σ → ℕ) (helper : σ → α) : Prop where
  enabled : ∀ s, P s → ∃ t, step (helper s) s t
  step : ∀ a s t, P s → P t → step a s t →
    rank t < rank s ∨ a ≠ helper s ∧ rank t = rank s ∧ helper t = helper s

namespace Ends

variable {rank : σ → ℕ} {helper : σ → α}

/-- The measure is lowered, or the condition ends. -/
theorem lowered (h : Ends step P rank helper) (hfair : r.Fair (helper (r.state n))) :
    ∃ m, n ≤ m ∧ (¬ P (r.state m) ∨ rank (r.state m) < rank (r.state n)) := by
  by_contra hnot
  push Not at hnot
  have hsame : ∀ m, n ≤ m → rank (r.state m) = rank (r.state n) ∧ helper (r.state m) = helper (r.state n) := by
    intro m hm
    induction m, hm using Nat.le_induction with
    | base => exact ⟨rfl, rfl⟩
    | succ m hm ih =>
      have hle := (hnot (m + 1) (by omega)).2
      rcases h.step _ _ _ (hnot m hm).1 (hnot (m + 1) (by omega)).1 (r.next m) with hlt | ⟨-, hrank, hhelper⟩
      · omega
      · exact ⟨hrank.trans ih.1, hhelper.trans ih.2⟩
  obtain ⟨m, hm, hturn⟩ := hfair n
  rw [← (hsame m hm).2] at hturn
  rcases hturn with hwho | hnone
  · rcases h.step _ _ _ (hnot m hm).1 (hnot (m + 1) (by omega)).1 (r.next m) with hlt | ⟨hne, -⟩
    · have hle := (hsame (m + 1) (by omega)).1
      have hle' := (hsame m hm).1
      omega
    · exact hne hwho
  · obtain ⟨t, ht⟩ := h.enabled _ (hnot m hm).1
    exact hnone t ht

/-- In the end the condition does not hold. -/
theorem eventually (h : Ends step P rank helper) (hfair : ∀ m, n ≤ m → r.Fair (helper (r.state m))) :
    ∃ m, n ≤ m ∧ ¬ P (r.state m) := by
  by_contra hnot
  push Not at hnot
  have hlow : ∀ k, ∃ m, n ≤ m ∧ rank (r.state m) + k ≤ rank (r.state n) := by
    intro k
    induction k with
    | zero => exact ⟨n, Nat.le_refl n, Nat.le_refl _⟩
    | succ k ih =>
      obtain ⟨m, hm, hle⟩ := ih
      obtain ⟨m', hm', hlt⟩ := h.lowered (hfair m hm)
      have hlt := hlt.resolve_left (not_not.mpr (hnot m' (Nat.le_trans hm hm')))
      exact ⟨m', Nat.le_trans hm hm', by omega⟩
  obtain ⟨m, -, hle⟩ := hlow (rank (r.state n) + 1)
  omega

end Ends

end Schedule
