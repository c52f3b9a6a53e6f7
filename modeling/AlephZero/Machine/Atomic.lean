import Mathlib.Logic.Relation

/-!
# Programs of atomic actions

A program of one thread, action by action, while others change the state between any two of
its actions. An action may have several outcomes; a loop runs its body again and again.

## What is proved

* `Terms` — what the others leave alone, what the program leaves alone, and what holds at
  any instant.
* `Safe.instant`, `Safe.leaves`, `Safe.result` — what a safe program does.
* `triple_act`, `triple_bind`, `triple_loop` — the rules. As what the others do is
  transitive, a rule looks at a state from which they have brought about the present one.
* `Ends` — programs that have a run to the end from any state.
-/

/-- A program of atomic actions; an action takes a state to a result and a state. -/
inductive Code (σ : Type) : Type → Type 1 where
  | ret {α : Type} (a : α) : Code σ α
  | act {α : Type} (f : σ → α → σ → Prop) : Code σ α
  | bind {α β : Type} (p : Code σ α) (f : α → Code σ β) : Code σ β
  /-- It runs the body until that gives a result. -/
  | loop {α : Type} (p : Code σ (Option α)) : Code σ α

namespace Code

instance (σ : Type) : Monad (Code σ) where
  pure := Code.ret
  bind := Code.bind

variable {σ α β : Type}

/-- An atomic load. -/
def load (g : σ → α) : Code σ α := act fun s a t => a = g s ∧ t = s

/-- An atomic store. -/
def store (u : σ → σ) : Code σ Unit := act fun s _ t => t = u s

/-- An atomic read and write. -/
def modify (u : σ → α × σ) : Code σ α := act fun s a t => (a, t) = u s

/-- What follows a run of the body of a loop. -/
def again (p : Code σ (Option α)) : Option α → Code σ α
  | some a => ret a
  | none => loop p

/-- One action, or one step to the next one. -/
inductive Step : {α : Type} → Code σ α → σ → Code σ α → σ → Prop where
  | act {α : Type} {f : σ → α → σ → Prop} {s t : σ} {a : α} : f s a t → Step (act f) s (ret a) t
  | bind {α β : Type} {p q : Code σ α} {f : α → Code σ β} {s t : σ} : Step p s q t →
      Step (bind p f) s (bind q f) t
  | next {α β : Type} {a : α} {f : α → Code σ β} {s : σ} : Step (bind (ret a) f) s (f a) s
  | loop {α : Type} {p : Code σ (Option α)} {s : σ} : Step (loop p) s (bind p (again p)) s

/-- A step of the program or of the others, who leave the program where it is. -/
def Moves (rely : σ → σ → Prop) (c d : Code σ α × σ) : Prop :=
  Step c.1 c.2 d.1 d.2 ∨ d.1 = c.1 ∧ rely c.2 d.2

/-- A run of the program gets there. -/
def Visits (rely : σ → σ → Prop) (p : Code σ α) (s : σ) (q : Code σ α) (t : σ) : Prop :=
  Relation.ReflTransGen (Moves rely) (p, s) (q, t)

/-- What a program relies on, what it guarantees, and what holds at any instant. -/
structure Terms (σ : Type) where
  /-- What the others do. -/
  rely : σ → σ → Prop
  refl : ∀ s, rely s s
  trans : ∀ {s t u}, rely s t → rely t u → rely s u
  /-- What an action of the program does. -/
  guar : σ → σ → Prop
  guar_refl : ∀ s, guar s s
  inv : σ → Prop
  inv_rely : ∀ {s t}, inv s → rely s t → inv t

variable {T : Terms σ} {p q : Code σ α} {s t x : σ} {A B : σ → Prop} {Q R : α → σ → Prop}

/-- The program keeps to the terms from this state, and has this result. -/
def Safe (T : Terms σ) (p : Code σ α) (Q : α → σ → Prop) (s : σ) : Prop :=
  ∀ q t, Visits T.rely p s q t →
    T.inv t ∧ (∀ q' t', Step q t q' t' → T.guar t t') ∧ ∀ a, q = ret a → Q a t

theorem Safe.instant (h : Safe T p Q s) (hv : Visits T.rely p s q t) : T.inv t := (h q t hv).1

theorem Safe.leaves {q' : Code σ α} {t' : σ} (h : Safe T p Q s) (hv : Visits T.rely p s q t)
    (hst : Step q t q' t') : T.guar t t' := (h q t hv).2.1 q' t' hst

theorem Safe.result {a : α} (h : Safe T p Q s) (hv : Visits T.rely p s (ret a) t) : Q a t :=
  (h _ t hv).2.2 a rfl

theorem Safe.here (h : Safe T p Q s) : T.inv s := h.instant .refl

theorem Safe.step (h : Safe T p Q s) (hst : Step p s q t) : Safe T q Q t := fun _ _ hv =>
  h _ _ (.head (.inl hst) hv)

theorem Safe.env (h : Safe T p Q s) (hst : T.rely s t) : Safe T p Q t := fun _ _ hv =>
  have hmove : Moves T.rely (p, s) (p, t) := .inr ⟨rfl, hst⟩
  h _ _ (.head hmove hv)

theorem Safe.mono (h : Safe T p Q s) (hQ : ∀ a t, Q a t → R a t) : Safe T p R s := fun q t hv =>
  ⟨(h q t hv).1, (h q t hv).2.1, fun a ha => hQ a t ((h q t hv).2.2 a ha)⟩

section Visits

variable {rely : σ → σ → Prop} {f : α → Code σ β} {q' : Code σ β} {u : σ} {a : α}

theorem Visits.act {g : σ → α → σ → Prop} (h : g s a t) : Visits rely (act g) s (ret a) t := by
  have hmove : Moves rely (Code.act g, s) (ret a, t) := .inl (.act h)
  exact .single hmove

theorem Visits.load {g : σ → α} : Visits rely (load g) s (ret (g s)) s := .act ⟨rfl, rfl⟩

theorem Visits.store {v : σ → σ} : Visits rely (store v) s (ret ()) (v s) := .act rfl

theorem Visits.modify {v : σ → α × σ} : Visits rely (modify v) s (ret (v s).1) (v s).2 := .act rfl

theorem Visits.bind_left (h : Visits rely p s q t) (f : α → Code σ β) : Visits rely (p >>= f) s (q >>= f) t := by
  refine Relation.ReflTransGen.lift (fun c : Code σ α × σ => (c.1 >>= f, c.2)) (fun c d hmove => ?_) _ _ h
  rcases hmove with hst | ⟨heq, hrely⟩
  · exact .inl (.bind hst)
  · exact .inr ⟨congrArg (· >>= f) heq, hrely⟩

theorem Visits.bind (h : Visits rely p s (ret a) t) (h' : Visits rely (f a) t q' u) :
    Visits rely (p >>= f) s q' u := by
  have hmove : Moves rely (Code.bind (ret a) f, t) (f a, t) := .inl .next
  exact (h.bind_left f).trans (.head hmove h')

theorem Visits.env (h : rely s t) (h' : Visits rely p t q u) : Visits rely p s q u := by
  have hmove : Moves rely (p, s) (p, t) := .inr ⟨rfl, h⟩
  exact .head hmove h'

end Visits

/-- What each step keeps. -/
theorem safe_of_invariant {J : Code σ α → σ → Prop} (hJ : J p s)
    (henv : ∀ q s t, J q s → T.rely s t → J q t)
    (hstep : ∀ q s q' t, J q s → Step q s q' t → T.guar s t ∧ J q' t)
    (hinv : ∀ q s, J q s → T.inv s) (hQ : ∀ a s, J (ret a) s → Q a s) : Safe T p Q s := by
  intro q t hv
  have hJt : J q t := by
    have hall : ∀ c, Relation.ReflTransGen (Moves T.rely) (p, s) c → J c.1 c.2 := by
      intro c hc
      induction hc with
      | refl => exact hJ
      | tail _ hmove ih =>
        rcases hmove with hst | ⟨heq, hrely⟩
        · exact (hstep _ _ _ _ ih hst).2
        · exact heq ▸ henv _ _ _ ih hrely
    exact hall (q, t) hv
  exact ⟨hinv q t hJt, fun q' t' hst => (hstep q t q' t' hJt hst).1, fun a ha => hQ a t (ha ▸ hJt)⟩

/-- A state from which the others have brought about this one, and which is as it should be. -/
def Seen (T : Terms σ) (A : σ → Prop) (s : σ) : Prop := ∃ x, A x ∧ T.inv x ∧ T.rely x s

theorem Seen.intro (hA : A s) (hinv : T.inv s) : Seen T A s := ⟨s, hA, hinv, T.refl s⟩

theorem Seen.env (h : Seen T A s) (hst : T.rely s t) : Seen T A t := by
  obtain ⟨x, hA, hinv, hx⟩ := h
  exact ⟨x, hA, hinv, T.trans hx hst⟩

theorem Seen.inv (h : Seen T A s) : T.inv s := by
  obtain ⟨x, -, hinv, hx⟩ := h
  exact T.inv_rely hinv hx

theorem Seen.mono (h : Seen T A s) (hB : ∀ x, A x → B x) : Seen T B s := by
  obtain ⟨x, hA, hinv, hx⟩ := h
  exact ⟨x, hB x hA, hinv, hx⟩

/-- From a state like this the program is safe, and its result is like that. -/
def Triple (T : Terms σ) (A : σ → Prop) (p : Code σ α) (Q : α → σ → Prop) : Prop :=
  ∀ s, Seen T A s → Safe T p (fun a => Seen T (Q a)) s

theorem triple_pure {a : α} (h : ∀ x, A x → Q a x) : Triple T A (ret a) Q := by
  intro s hs
  refine safe_of_invariant (J := fun q s => q = ret a ∧ Seen T A s) ⟨rfl, hs⟩ ?_ ?_ ?_ ?_
  · rintro q s t ⟨hq, hJ⟩ hrely
    exact ⟨hq, hJ.env hrely⟩
  · rintro q s q' t ⟨rfl, -⟩ hst
    cases hst
  · exact fun q s hJ => hJ.2.inv
  · rintro b t ⟨hb, hJ⟩
    cases hb
    exact hJ.mono h

theorem triple_act {f : σ → α → σ → Prop}
    (h : ∀ x s a t, A x → T.inv x → T.rely x s → f s a t → T.guar s t ∧ Seen T (Q a) t) :
    Triple T A (act f) Q := by
  intro s hs
  refine safe_of_invariant (J := fun q s => q = act f ∧ Seen T A s ∨ ∃ a, q = ret a ∧ Seen T (Q a) s)
    (.inl ⟨rfl, hs⟩) ?_ ?_ ?_ ?_
  · rintro q s t (⟨hq, hJ⟩ | ⟨a, hq, hJ⟩) hrely
    · exact .inl ⟨hq, hJ.env hrely⟩
    · exact .inr ⟨a, hq, hJ.env hrely⟩
  · rintro q s q' t (⟨rfl, x, hA, hinv, hx⟩ | ⟨a, rfl, -⟩) hst
    · cases hst with
      | act hf =>
        obtain ⟨hguar, hseen⟩ := h x s _ t hA hinv hx hf
        exact ⟨hguar, .inr ⟨_, rfl, hseen⟩⟩
    · cases hst
  · rintro q s (⟨-, hJ⟩ | ⟨a, -, hJ⟩)
    · exact hJ.inv
    · exact hJ.inv
  · rintro b t (⟨hb, -⟩ | ⟨a, hb, hJ⟩)
    · cases hb
    · cases hb
      exact hJ

theorem triple_bind {f : α → Code σ β} {R : β → σ → Prop} (hp : Triple T A p Q)
    (hf : ∀ a, Triple T (Q a) (f a) R) : Triple T A (p >>= f) R := by
  intro s hs
  refine safe_of_invariant (J := fun q s => (∃ p', q = bind p' f ∧ Safe T p' (fun a => Seen T (Q a)) s) ∨
    Safe T q (fun b => Seen T (R b)) s) (.inl ⟨p, rfl, hp s hs⟩) ?_ ?_ ?_ ?_
  · rintro q s t (⟨p', hq, hJ⟩ | hJ) hrely
    · exact .inl ⟨p', hq, hJ.env hrely⟩
    · exact .inr (hJ.env hrely)
  · rintro q s q' t (⟨p', rfl, hJ⟩ | hJ) hst
    · cases hst with
      | bind hst => exact ⟨hJ.leaves .refl hst, .inl ⟨_, rfl, hJ.step hst⟩⟩
      | next => exact ⟨T.guar_refl _, .inr (hf _ _ (hJ.result .refl))⟩
    · exact ⟨hJ.leaves .refl hst, .inr (hJ.step hst)⟩
  · rintro q s (⟨p', -, hJ⟩ | hJ)
    · exact hJ.here
    · exact hJ.here
  · rintro b t (⟨p', hb, -⟩ | hJ)
    · cases hb
    · exact hJ.result .refl

theorem triple_conseq (h : Triple T A p Q) (hA : ∀ x, B x → A x) (hQ : ∀ a x, Q a x → R a x) :
    Triple T B p R := fun s hs => (h s (hs.mono hA)).mono fun a _ ht => ht.mono (hQ a)

theorem triple_pre (h : Triple T A p Q) (hA : ∀ x, B x → A x) : Triple T B p Q := triple_conseq h hA fun _ _ hx => hx

theorem triple_post (h : Triple T A p Q) (hQ : ∀ a x, Q a x → R a x) : Triple T A p R :=
  triple_conseq h (fun _ hx => hx) hQ

theorem triple_or (hA : Triple T A p Q) (hB : Triple T B p Q) : Triple T (fun x => A x ∨ B x) p Q := by
  rintro s ⟨x, hx | hx, hinv, hrely⟩
  · exact hA s ⟨x, hx, hinv, hrely⟩
  · exact hB s ⟨x, hx, hinv, hrely⟩

theorem triple_exists {ζ : Sort*} {A : ζ → σ → Prop} (h : ∀ z, Triple T (A z) p Q) :
    Triple T (fun x => ∃ z, A z x) p Q := by
  rintro s ⟨x, ⟨z, hx⟩, hinv, hrely⟩
  exact h z s ⟨x, hx, hinv, hrely⟩

/-- What does not depend on the state. -/
theorem triple_and {c : Prop} (h : c → Triple T A p Q) : Triple T (fun x => c ∧ A x) p Q := by
  rintro s ⟨x, ⟨hc, hx⟩, hinv, hrely⟩
  exact h hc s ⟨x, hx, hinv, hrely⟩

/-- The body keeps the invariant of the loop, or ends it. -/
theorem triple_loop {p : Code σ (Option α)} (h : Triple T A p fun r x => match r with
      | some a => Q a x
      | none => A x) : Triple T A (loop p) Q := by
  intro s hs
  refine safe_of_invariant (J := fun q s => q = loop p ∧ Seen T A s ∨
    (∃ p', q = bind p' (again p) ∧ Safe T p' (fun r => Seen T fun x => match r with
      | some a => Q a x
      | none => A x) s) ∨ ∃ a, q = ret a ∧ Seen T (Q a) s) (.inl ⟨rfl, hs⟩) ?_ ?_ ?_ ?_
  · rintro q s t (⟨hq, hJ⟩ | ⟨p', hq, hJ⟩ | ⟨a, hq, hJ⟩) hrely
    · exact .inl ⟨hq, hJ.env hrely⟩
    · exact .inr (.inl ⟨p', hq, hJ.env hrely⟩)
    · exact .inr (.inr ⟨a, hq, hJ.env hrely⟩)
  · rintro q s q' t (⟨rfl, hJ⟩ | ⟨p', rfl, hJ⟩ | ⟨a, rfl, -⟩) hst
    · cases hst with
      | loop => exact ⟨T.guar_refl _, .inr (.inl ⟨p, rfl, h _ hJ⟩)⟩
    · cases hst with
      | bind hst => exact ⟨hJ.leaves .refl hst, .inr (.inl ⟨_, rfl, hJ.step hst⟩)⟩
      | @next _ _ r =>
        have hr := hJ.result .refl
        cases r with
        | some a => exact ⟨T.guar_refl _, .inr (.inr ⟨a, rfl, hr⟩)⟩
        | none => exact ⟨T.guar_refl _, .inl ⟨rfl, hr⟩⟩
    · cases hst
  · rintro q s (⟨-, hJ⟩ | ⟨p', -, hJ⟩ | ⟨a, -, hJ⟩)
    · exact hJ.inv
    · exact hJ.here
    · exact hJ.inv
  · rintro b t (⟨hb, -⟩ | ⟨p', hb, -⟩ | ⟨a, hb, hJ⟩)
    · cases hb
    · cases hb
    · cases hb
      exact hJ

/-- A load of what the others leave alone. -/
theorem triple_load {g : σ → α} (h : ∀ x s, A x → T.rely x s → g s = g x) :
    Triple T A (load g) fun a x => A x ∧ a = g x := by
  refine triple_act fun x s a t hA hinv hx hf => ?_
  obtain ⟨rfl, rfl⟩ := hf
  exact ⟨T.guar_refl _, x, ⟨hA, h x _ hA hx⟩, hinv, hx⟩

/-- A load of what the others may change. -/
theorem triple_load_any {g : σ → α} : Triple T A (load g) fun _ => A := by
  refine triple_act fun x s a t hA hinv hx hf => ?_
  obtain ⟨rfl, rfl⟩ := hf
  exact ⟨T.guar_refl _, x, hA, hinv, hx⟩

theorem triple_store {u : σ → σ} (h : ∀ x s, A x → T.inv x → T.rely x s →
      T.guar s (u s) ∧ B (u x) ∧ T.inv (u x) ∧ T.rely (u x) (u s)) : Triple T A (store u) fun _ => B := by
  refine triple_act fun x s a t hA hinv hx hf => ?_
  cases hf
  obtain ⟨hguar, hB, hinv', hx'⟩ := h x s hA hinv hx
  exact ⟨hguar, u x, hB, hinv', hx'⟩

/-- An action from a state of which all is known that the others leave alone. -/
theorem triple_act_of_rely {f : σ → α → σ → Prop} (hA : ∀ x s, A x → T.rely x s → A s)
    (h : ∀ s a t, A s → T.inv s → f s a t → T.guar s t ∧ Q a t ∧ T.inv t) : Triple T A (act f) Q := by
  refine triple_act fun x s a t hx hinv hrely hf => ?_
  obtain ⟨hguar, hQ, hinv'⟩ := h s a t (hA x s hx hrely) (T.inv_rely hinv hrely) hf
  exact ⟨hguar, .intro hQ hinv'⟩

theorem triple_modify_of_rely {u : σ → α × σ} (hA : ∀ x s, A x → T.rely x s → A s)
    (h : ∀ s, A s → T.inv s → T.guar s (u s).2 ∧ Q (u s).1 (u s).2 ∧ T.inv (u s).2) : Triple T A (modify u) Q := by
  refine triple_act_of_rely hA fun s a t hs hinv hf => ?_
  obtain ⟨rfl, rfl⟩ := Prod.mk.inj hf
  exact h s hs hinv

theorem triple_ite {c : Prop} [Decidable c] (h : c → Triple T A p Q) (h' : ¬ c → Triple T A q Q) :
    Triple T A (if c then p else q) Q := by
  split
  · exact h ‹_›
  · exact h' ‹_›

/-! ### Programs that end -/

/-- From any state a run gets to the end. -/
def Ends (rely : σ → σ → Prop) (p : Code σ α) : Prop := ∀ s, ∃ a t, Visits rely p s (ret a) t

section Ends

variable {rely : σ → σ → Prop} {f : α → Code σ β}

theorem ends_pure {a : α} : Ends rely (ret a) := fun s => ⟨a, s, .refl⟩

theorem ends_act {f : σ → α → σ → Prop} (h : ∀ s, ∃ a t, f s a t) : Ends rely (act f) := by
  intro s
  obtain ⟨a, t, hf⟩ := h s
  exact ⟨a, t, .act hf⟩

theorem ends_load {g : σ → α} : Ends rely (load g) := fun _ => ⟨_, _, .load⟩

theorem ends_store {u : σ → σ} : Ends rely (store u) := fun _ => ⟨_, _, .store⟩

theorem ends_modify {u : σ → α × σ} : Ends rely (modify u) := fun _ => ⟨_, _, .modify⟩

theorem ends_bind (hp : Ends rely p) (hf : ∀ a, Ends rely (f a)) : Ends rely (p >>= f) := by
  intro s
  obtain ⟨a, t, ht⟩ := hp s
  obtain ⟨b, u, hu⟩ := hf a t
  exact ⟨b, u, ht.bind hu⟩

theorem ends_ite {c : Prop} [Decidable c] (hp : Ends rely p) (hq : Ends rely q) : Ends rely (if c then p else q) := by
  split
  · exact hp
  · exact hq

end Ends

end Code
