import AlephZero.Machine.Runs
import Mathlib.Logic.Function.Basic
import Mathlib.Tactic.SplitIfs

/-!
# Threads that share a state

Any number of threads, each with a state of its own, and a state that they share. A step is
an atomic action of one thread.

## What is proved

* `Stable.isInvariant` — a fact about the shared state and one about each thread hold at any
  time, if the actions of a thread keep them, and if they keep those of the other threads.
* `isInvariant_of` — so they do where a thread's actions rest on facts about the others too.
-/

/-- The state of all threads. -/
structure Threads (ι S L : Type*) where
  shared : S
  /-- What each thread has for itself. -/
  loc : ι → L

namespace Threads

variable {ι S L : Type*} [DecidableEq ι]

/-- The runs of threads that do these actions; an action takes a thread from what is shared
and what it has to what is shared then and what it has then. -/
def system (init : S → (ι → L) → Prop) (act : ι → Threads ι S L → S → L → Prop) :
    TransitionSystem (Threads ι S L) where
  init σ := init σ.shared σ.loc
  step σ τ := ∃ i l, act i σ τ.shared l ∧ τ.loc = Function.update σ.loc i l

/-- An action keeps a fact about what is shared and one about each thread. -/
structure Stable (init : S → (ι → L) → Prop) (act : ι → Threads ι S L → S → L → Prop)
    (G : S → Prop) (I : ι → S → L → Prop) : Prop where
  init : ∀ s loc, init s loc → G s ∧ ∀ i, I i s (loc i)
  /-- Its own. -/
  own : ∀ i σ s l, act i σ s l → G σ.shared → I i σ.shared (σ.loc i) → G s ∧ I i s l
  /-- Those of the others. -/
  others : ∀ i j σ s l, j ≠ i → act i σ s l → G σ.shared → I i σ.shared (σ.loc i) →
    I j σ.shared (σ.loc j) → I j s (σ.loc j)

variable {init : S → (ι → L) → Prop} {act : ι → Threads ι S L → S → L → Prop} {G : S → Prop} {I : ι → S → L → Prop}

/-- A thread does an action. -/
theorem reach_act {σ : Threads ι S L} {s : S} {l : L} (hσ : (system init act).Reach σ) (i : ι)
    (h : act i σ s l) : (system init act).Reach ⟨s, Function.update σ.loc i l⟩ :=
  hσ.step ⟨i, l, h, rfl⟩

/-- A run goes on with an action. -/
theorem isRun_act {σ : Threads ι S L} {past : List (Threads ι S L)} {s : S} {l : L}
    (hσ : (system init act).IsRun (σ :: past)) (i : ι) (h : act i σ s l) :
    (system init act).IsRun (⟨s, Function.update σ.loc i l⟩ :: σ :: past) :=
  hσ.step ⟨i, l, h, rfl⟩

/-- What holds at first, and what each action keeps that finds it of all threads, holds at any time. -/
theorem isInvariant_of (hinit : ∀ s loc, init s loc → G s ∧ ∀ i, I i s (loc i))
    (hown : ∀ i σ s l, act i σ s l → G σ.shared → (∀ j, I j σ.shared (σ.loc j)) → G s ∧ I i s l)
    (hothers : ∀ i j σ s l, j ≠ i → act i σ s l → (∀ k, I k σ.shared (σ.loc k)) → I j s (σ.loc j)) :
    (system init act).IsInvariant fun σ => G σ.shared ∧ ∀ i, I i σ.shared (σ.loc i) where
  init σ hi := hinit σ.shared σ.loc hi
  step σ τ hσ hst := by
    obtain ⟨i, l, hact, hloc⟩ := hst
    obtain ⟨hG, hI⟩ := hσ
    have hown := hown i σ τ.shared l hact hG hI
    refine ⟨hown.1, fun j => ?_⟩
    rw [hloc, Function.update_apply]
    split_ifs with hj
    · exact hj ▸ hown.2
    · exact hothers i j σ τ.shared l hj hact hI

/-- What is stable holds at any time. -/
theorem Stable.isInvariant (h : Stable init act G I) :
    (system init act).IsInvariant fun σ => G σ.shared ∧ ∀ i, I i σ.shared (σ.loc i) where
  init σ hi := h.init σ.shared σ.loc hi
  step σ τ hσ hst := by
    obtain ⟨i, l, hact, hloc⟩ := hst
    obtain ⟨hG, hI⟩ := hσ
    have hown := h.own i σ τ.shared l hact hG (hI i)
    refine ⟨hown.1, fun j => ?_⟩
    rw [hloc, Function.update_apply]
    split_ifs with hj
    · exact hj ▸ hown.2
    · exact h.others i j σ τ.shared l hj hact hG (hI i) (hI j)

end Threads
