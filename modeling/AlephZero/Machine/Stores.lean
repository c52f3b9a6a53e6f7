import Mathlib.Init

/-!
# Programs as sequences of stores

A program that changes a shared memory by one store at a time, and that may be
cut off between any two of them. `Prog σ α` is such a program over the states
`σ`: run from a state it gives a value, the final state, and the states it
passes through, one after each store. A process that dies while it runs the
program leaves the memory in its first state or in one of those.

`wpc p C Q s` is the weakest precondition with a crash condition: run from `s`,
every state `p` passes through satisfies `C`, and its value and final state
satisfy `Q`. It is computed over the program's structure (`wpc_bind`,
`wpc_read`, `wpc_write`), so one lemma for each function of a program gives at
once what the function does and what it leaves behind when it is cut off.

## What is proved

* `wpc_bind` and its companions — the rules, as equivalences.
* `wpc_mono`, `wpc_and` — consequence and conjunction.
* `crash_of_wpc` — a state a program can be cut off in satisfies its crash
  condition.
* `crash_bind_left`, `crash_bind_right` — where a program can be cut off.
-/

namespace StoreProg

/-- What running a program gives: its value, the final state, and the states
after each store, in order. -/
structure Run (σ α : Type) where
  /-- The value. -/
  value : α
  /-- The final state. -/
  final : σ
  /-- The states after each store. -/
  trace : List σ

/-- A program that works by stores to a state in `σ`. -/
def Prog (σ α : Type) := σ → Run σ α

namespace Prog

variable {σ α β : Type}

/-- Do nothing. -/
protected def pure (a : α) : Prog σ α := fun s => ⟨a, s, []⟩

/-- One program after another. -/
protected def bind (p : Prog σ α) (f : α → Prog σ β) : Prog σ β := fun s =>
  let r := p s
  let r' := f r.value r.final
  ⟨r'.value, r'.final, r.trace ++ r'.trace⟩

instance : Monad (Prog σ) where
  pure := Prog.pure
  bind := Prog.bind

instance : LawfulMonad (Prog σ) :=
  LawfulMonad.mk' _
    (fun p => funext fun s => by simp [Functor.map, Prog.bind, Prog.pure])
    (fun a f => funext fun s => by simp [bind, pure, Prog.bind, Prog.pure])
    (fun p f g => funext fun s => by simp [bind, Prog.bind])

/-- Load something from the state. -/
def read (f : σ → α) : Prog σ α := fun s => ⟨f s, s, []⟩

/-- One store. -/
def write (f : σ → σ) : Prog σ Unit := fun s => ⟨(), f s, [f s]⟩

/-- The state a program leaves, run to its end. -/
def exec (p : Prog σ α) (s : σ) : σ := (p s).final

/-- The value of a program, run to its end. -/
def eval (p : Prog σ α) (s : σ) : α := (p s).value

/-- `t` is a state in which a process that runs `p` from `s` can die: before its
first store, or after any of them. -/
def Crash (p : Prog σ α) (s t : σ) : Prop := t = s ∨ t ∈ (p s).trace

/-- The weakest precondition with a crash condition. -/
def wpc (p : Prog σ α) (C : σ → Prop) (Q : α → σ → Prop) (s : σ) : Prop :=
  (∀ t ∈ (p s).trace, C t) ∧ Q (p s).value (p s).final

variable {p : Prog σ α} {f : α → Prog σ β} {C C' : σ → Prop} {Q Q' : α → σ → Prop}
  {R : β → σ → Prop} {s t : σ}

/-! ### The rules -/

@[simp] theorem wpc_pure {a : α} : wpc (pure a : Prog σ α) C Q s ↔ Q a s := by
  simp [wpc, pure, Prog.pure]

@[simp] theorem wpc_bind : wpc (p >>= f) C R s ↔ wpc p C (fun a t => wpc (f a) C R t) s := by
  simp only [wpc, bind, Prog.bind, List.mem_append, or_imp, forall_and, and_assoc]

@[simp] theorem wpc_read {g : σ → α} : wpc (read g) C Q s ↔ Q (g s) s := by
  simp [wpc, read]

@[simp] theorem wpc_write {g : σ → σ} {Q : Unit → σ → Prop} :
    wpc (write g) C Q s ↔ C (g s) ∧ Q () (g s) := by
  simp [wpc, write]

theorem wpc_mono {D : σ → Prop} {R : α → σ → Prop} (h : wpc p C Q s) (hC : ∀ t, C t → D t)
    (hQ : ∀ a t, Q a t → R a t) : wpc p D R s :=
  ⟨fun t ht => hC t (h.1 t ht), hQ _ _ h.2⟩

theorem wpc_and (h : wpc p C Q s) (h' : wpc p C' Q' s) :
    wpc p (fun t => C t ∧ C' t) (fun a t => Q a t ∧ Q' a t) s :=
  ⟨fun t ht => ⟨h.1 t ht, h'.1 t ht⟩, h.2, h'.2⟩

/-! ### What a run gives -/

theorem post_of_wpc (h : wpc p C Q s) : Q (p.eval s) (p.exec s) := h.2

theorem crash_of_wpc (h : wpc p C Q s) (hs : C s) (ht : p.Crash s t) : C t := by
  rcases ht with rfl | ht
  · exact hs
  · exact h.1 t ht

@[simp] theorem exec_pure (a : α) : (pure a : Prog σ α).exec s = s := rfl

@[simp] theorem eval_pure (a : α) : (pure a : Prog σ α).eval s = a := rfl

@[simp] theorem exec_bind : (p >>= f).exec s = (f (p.eval s)).exec (p.exec s) := rfl

@[simp] theorem eval_bind : (p >>= f).eval s = (f (p.eval s)).eval (p.exec s) := rfl

@[simp] theorem exec_read {g : σ → α} : (read g).exec s = s := rfl

@[simp] theorem eval_read {g : σ → α} : (read g).eval s = g s := rfl

@[simp] theorem exec_write {g : σ → σ} : (write g).exec s = g s := rfl

@[simp] theorem crash_read_bind {g : σ → α} : (read g >>= f).Crash s t ↔ (f (g s)).Crash s t := by
  simp [Crash, bind, Prog.bind, read]

/-- Where a sequence can be cut off: in its first part, or in its second. -/
theorem crash_bind (h : (p >>= f).Crash s t) :
    p.Crash s t ∨ (f (p.eval s)).Crash (p.exec s) t := by
  simp only [Crash, bind, Prog.bind, List.mem_append] at h ⊢
  rcases h with rfl | h | h
  · exact .inl (.inl rfl)
  · exact .inl (.inr h)
  · exact .inr (.inr h)

theorem crash_bind_left (h : p.Crash s t) : (p >>= f).Crash s t := by
  simp only [Crash, bind, Prog.bind, List.mem_append] at h ⊢
  rcases h with h | h
  · exact .inl h
  · exact .inr (.inl h)

/-- The first part has been run to its end, where it can be cut off too. -/
theorem crash_bind_right (hp : p.Crash s (p.exec s)) (h : (f (p.eval s)).Crash (p.exec s) t) :
    (p >>= f).Crash s t := by
  rcases h with rfl | h
  · exact crash_bind_left hp
  · exact .inr (List.mem_append_right _ h)

theorem crash_write {g : σ → σ} : (write g).Crash s (g s) := .inr (List.mem_singleton_self _)

/-! ### A part of the state -/

variable {τ : Type} {get : σ → τ} {set : τ → σ → σ}

/-- A program on a part of the state. -/
def focus (get : σ → τ) (set : τ → σ → σ) (p : Prog τ α) : Prog σ α := fun s =>
  ⟨(p (get s)).value, set (p (get s)).final s, (p (get s)).trace.map (set · s)⟩

@[simp] theorem eval_focus {p : Prog τ α} : (focus get set p).eval s = p.eval (get s) := rfl

@[simp] theorem exec_focus {p : Prog τ α} : (focus get set p).exec s = set (p.exec (get s)) s := rfl

@[simp] theorem wpc_focus {p : Prog τ α} : wpc (focus get set p) C Q s ↔
    wpc p (fun t => C (set t s)) (fun a t => Q a (set t s)) (get s) := by
  simp [wpc, focus]

end Prog

end StoreProg
