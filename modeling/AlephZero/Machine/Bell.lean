import AlephZero.Machine.Stores
import Mathlib.Data.List.Basic

/-!
# Programs that ring a bell

Others sleep until a bell rings, and then look at what a program shows. The program may
change it by any store, but then it has to ring the bell: by a later store, which counts up
the bell's counter.

## What is proved

* `Announced` — from each state that a program passes through it either rings, or does not
  change what it shows until it ends.
* `Prog.announces_bind`, `Prog.announces_of_quiet`, `Prog.rings_bind` — the rules.
* `Announced.step` — what one store of such a program does.
-/

namespace StoreProg

/-- The last state after a store is the final state. -/
class Traced {σ α : Type} (p : Prog σ α) : Prop where
  last : ∀ s, (p s).final = (p s).trace.getLastD s

section Traced

variable {σ α β : Type}

theorem getLastD_append (xs ys : List σ) (s : σ) : (xs ++ ys).getLastD s = ys.getLastD (xs.getLastD s) := by
  induction xs generalizing s with
  | nil => rfl
  | cons x xs ih => rw [List.cons_append, List.getLastD_cons, List.getLastD_cons, ih]

instance traced_pure (a : α) : Traced (pure a : Prog σ α) := ⟨fun _ => rfl⟩

instance traced_read (f : σ → α) : Traced (Prog.read f) := ⟨fun _ => rfl⟩

instance traced_write (f : σ → σ) : Traced (Prog.write f) := ⟨fun _ => rfl⟩

instance traced_bind (p : Prog σ α) (f : α → Prog σ β) [hp : Traced p] [hf : ∀ a, Traced (f a)] :
    Traced (p >>= f) where
  last s := by
    show (f (p s).value (p s).final).final = ((p s).trace ++ (f (p s).value (p s).final).trace).getLastD s
    rw [getLastD_append, ← hp.last, ← (hf _).last]

instance traced_ite (c : Prop) [Decidable c] (p q : Prog σ α) [hp : Traced p] [hq : Traced q] :
    Traced (if c then p else q) := by
  split
  · exact hp
  · exact hq

end Traced

/-- A bell, and what is shown. -/
structure Bell (σ β : Type) where
  count : σ → ℕ
  shown : σ → β
  /-- The next count. -/
  succ : ℕ → ℕ

variable {σ α α' β : Type} {B : Bell σ β} {s t : σ} {τ τ' : List σ} {p : Prog σ α} {f : α → Prog σ α'}

/-- Each store rings the bell or does not; and until the next one that does, if there is one,
what is shown may change. -/
def Announced (B : Bell σ β) : σ → List σ → Prop
  | _, [] => True
  | s, t :: τ => (B.count t = B.count s ∨ B.count t = B.succ (B.count s)) ∧
    ((∀ u ∈ t :: τ, B.count u = B.count s) → B.shown t = B.shown s) ∧ Announced B t τ

/-- It does ring. -/
def Rung (B : Bell σ β) (s : σ) (τ : List σ) : Prop := Announced B s τ ∧ ∃ t ∈ τ, B.count t ≠ B.count s

theorem Announced.append (h : Announced B s τ) (h' : Announced B (τ.getLastD s) τ') : Announced B s (τ ++ τ') := by
  induction τ generalizing s with
  | nil => exact h'
  | cons t τ ih =>
    rw [List.getLastD_cons] at h'
    refine ⟨h.1, fun hu => h.2.1 fun u hu' => hu u ?_, ih h.2.2 h'⟩
    exact List.mem_append_left τ' hu'

/-- Nothing that is shown changes, and the bell does not ring. -/
theorem announced_of_quiet (h : ∀ t ∈ τ, B.count t = B.count s ∧ B.shown t = B.shown s) : Announced B s τ := by
  induction τ generalizing s with
  | nil => trivial
  | cons t τ ih =>
    obtain ⟨ht, hs⟩ := h t List.mem_cons_self
    refine ⟨.inl ht, fun _ => hs, ih fun u hu => ?_⟩
    obtain ⟨hc, hs'⟩ := h u (List.mem_cons_of_mem t hu)
    exact ⟨hc.trans ht.symm, hs'.trans hs.symm⟩

/-- Anything may change if it rings behind that. -/
theorem Rung.append_left (h : ∀ t ∈ τ, B.count t = B.count s) (h' : Rung B (τ.getLastD s) τ') : Rung B s (τ ++ τ') := by
  induction τ generalizing s with
  | nil => exact h'
  | cons t τ ih =>
    have ht := h t List.mem_cons_self
    rw [List.getLastD_cons] at h'
    obtain ⟨ha, u, hu, hne⟩ := ih (fun u hu => (h u (List.mem_cons_of_mem t hu)).trans ht.symm) h'
    rw [ht] at hne
    refine ⟨⟨.inl ht, fun hall => ?_, ha⟩, u, List.mem_cons_of_mem t hu, hne⟩
    exact absurd (hall u (List.mem_cons_of_mem t hu)) hne

/-- What one store of an announced run does: it rings; or what is shown is the same, unless
the bell rings later. -/
theorem Announced.step (h : Announced B s (t :: τ)) : Announced B t τ ∧
    (B.count t ≠ B.count s ∧ B.count t = B.succ (B.count s) ∨
      B.count t = B.count s ∧ (B.shown t = B.shown s ∨ ∃ u ∈ τ, B.count u ≠ B.count t)) := by
  obtain ⟨hc, hs, ha⟩ := h
  refine ⟨ha, ?_⟩
  by_cases ht : B.count t = B.count s
  · refine .inr ⟨ht, ?_⟩
    by_cases hall : ∀ u ∈ τ, B.count u = B.count t
    · refine .inl (hs fun u hu => ?_)
      rcases List.mem_cons.mp hu with rfl | hu
      · exact ht
      · exact (hall u hu).trans ht
    · obtain ⟨u, hu⟩ := not_forall.mp hall
      exact .inr ⟨u, Classical.not_imp.mp hu⟩
  · exact .inl ⟨ht, hc.resolve_left ht⟩

namespace Prog

/-- What the program changes it announces. -/
def Announces (B : Bell σ β) (p : Prog σ α) (s : σ) : Prop := Announced B s (p s).trace

/-- And it does ring. -/
def Rings (B : Bell σ β) (p : Prog σ α) (s : σ) : Prop := Rung B s (p s).trace

theorem Rings.announces (h : p.Rings B s) : p.Announces B s := h.1

theorem announces_pure (a : α) : (pure a : Prog σ α).Announces B s := trivial

theorem announces_of_quiet {Q : α → σ → Prop}
    (h : p.wpc (fun t => B.count t = B.count s ∧ B.shown t = B.shown s) Q s) : p.Announces B s :=
  announced_of_quiet h.1

theorem announces_bind [hp : Traced p] (h : p.Announces B s)
    (h' : (f (p.eval s)).Announces B (p.exec s)) : (p >>= f).Announces B s := by
  refine Announced.append h ?_
  rw [← hp.last]
  exact h'

theorem announces_read_bind {g : σ → α} (h : (f (g s)).Announces B s) : (read g >>= f).Announces B s :=
  announces_bind (p := read g) trivial h

theorem rings_bind [hp : Traced p] (h : p.wpc (fun t => B.count t = B.count s) (fun a t => (f a).Rings B t) s) :
    (p >>= f).Rings B s := by
  refine Rung.append_left h.1 ?_
  rw [← hp.last]
  exact h.2

theorem rings_write {g : σ → σ} (h : B.count (g s) = B.succ (B.count s)) (hne : B.count (g s) ≠ B.count s) :
    (write g).Rings B s := by
  refine ⟨⟨.inr h, fun hall => ?_, trivial⟩, g s, List.mem_cons_self, hne⟩
  exact absurd (hall (g s) List.mem_cons_self) hne

end Prog

end StoreProg
