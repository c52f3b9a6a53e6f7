import Mathlib.Data.Finset.Basic
import Mathlib.Logic.Function.Basic

/-!
# Dispatching messages by key

Under a key a value is registered, at most one at a time. It stays until it is cancelled,
or until a message takes it away. A message is looked up by its key, and its class says
whether it takes the value away: it is then the last one for that value.

A history is the list of what has happened, the newest event first. It is legal if no value
is registered twice, and cancellations and messages report what was there.

## What is proved

* `Legal.mem_registered` — what is there has been registered.
* `Legal.last` — behind a message that takes a value away, no message gets that value.
* `Legal.cancelled_last` — nor behind the cancellation of that value.
* `Legal.handled_eq` — a message gets what is registered under its key.
* `Once.entries_isSome_iff` — where no key is registered twice, there is something under a key if
  and only if it is registered and nothing behind that has ended it.
-/

namespace Dispatch

variable {K V P : Type*}

/-- What happens. -/
inductive Event (K V P : Type*) where
  /-- A value is registered under a key. -/
  | registered (key : K) (v : V)
  /-- A key is cancelled, and what was there is gone. -/
  | cancelled (key : K) (r : Option V)
  /-- A message is looked up, and gets what is there. -/
  | handled (p : P) (r : Option V)

/-- The key of a message, and whether it takes the value away; other messages have none. -/
abbrev Class (K P : Type*) := P → Option (K × Bool)

variable [DecidableEq K]

/-- What is there. -/
def entries (cls : Class K P) : List (Event K V P) → K → Option V
  | [] => fun _ => none
  | .registered key v :: h => Function.update (entries cls h) key (some v)
  | .cancelled key _ :: h => Function.update (entries cls h) key none
  | .handled p _ :: h => (cls p).elim (entries cls h) fun c =>
    if c.2 then Function.update (entries cls h) c.1 none else entries cls h

/-- What a message gets. -/
def lookup (cls : Class K P) (h : List (Event K V P)) (p : P) : Option V :=
  (cls p).bind fun c => entries cls h c.1

/-- No value is registered twice, and the events report what was there. -/
inductive Legal (cls : Class K P) : List (Event K V P) → Prop where
  | nil : Legal cls []
  | registered {h : List (Event K V P)} {key : K} {v : V} (hl : Legal cls h)
    (hnew : ∀ key', .registered key' v ∉ h) : Legal cls (.registered key v :: h)
  | cancelled {h : List (Event K V P)} {key : K} (hl : Legal cls h) :
    Legal cls (.cancelled key (entries cls h key) :: h)
  | handled {h : List (Event K V P)} {p : P} (hl : Legal cls h) : Legal cls (.handled p (lookup cls h p) :: h)

variable {cls : Class K P} {h later earlier : List (Event K V P)} {e : Event K V P} {key key' : K} {v : V} {p : P}

theorem Legal.tail (hl : Legal cls (e :: h)) : Legal cls h := by
  cases hl <;> assumption

theorem Legal.of_append (hl : Legal cls (later ++ h)) : Legal cls h := by
  induction later with
  | nil => exact hl
  | cons e later ih => exact ih hl.tail

/-- Only a registration adds a value. -/
theorem entries_of_cancelled {r : Option V} (he : entries cls (.cancelled key' r :: h) key = some v) :
    entries cls h key = some v := by
  rw [entries, Function.update_apply] at he
  split_ifs at he
  exact he

theorem entries_of_handled {r : Option V} (he : entries cls (.handled p r :: h) key = some v) :
    entries cls h key = some v := by
  rw [entries] at he
  cases hc : cls p with
  | none => rwa [hc] at he
  | some c =>
    rw [hc, Option.elim_some] at he
    split_ifs at he
    · rw [Function.update_apply] at he
      split_ifs at he
      exact he
    · exact he

/-- What is there has been registered. -/
theorem Legal.mem_registered (hl : Legal cls h) (hv : entries cls h key = some v) : .registered key v ∈ h := by
  induction h generalizing key with
  | nil => cases hv
  | cons e h ih =>
    have htail (hv : entries cls h key = some v) : .registered key v ∈ h := ih hl.tail hv
    cases e with
    | registered key' w =>
      rw [entries, Function.update_apply] at hv
      split_ifs at hv with hk
      · cases hv
        exact hk ▸ List.mem_cons_self
      · exact List.mem_cons_of_mem _ (htail hv)
    | cancelled key' r => exact List.mem_cons_of_mem _ (htail (entries_of_cancelled hv))
    | handled p r => exact List.mem_cons_of_mem _ (htail (entries_of_handled hv))

/-- A value is registered once. -/
theorem Legal.key_eq (hl : Legal cls h) (hk : .registered key v ∈ h) (hk' : .registered key' v ∈ h) :
    key = key' := by
  induction hl with
  | nil => cases hk
  | @registered h key₀ w hl hnew ih =>
    rcases List.mem_cons.mp hk with he | hold <;> rcases List.mem_cons.mp hk' with he' | hold'
    · cases he; cases he'; rfl
    · cases he; exact absurd hold' (hnew _)
    · cases he'; exact absurd hold (hnew _)
    · exact ih hold hold'
  | cancelled _ ih =>
    exact ih ((List.mem_cons.mp hk).resolve_left nofun) ((List.mem_cons.mp hk').resolve_left nofun)
  | handled _ ih =>
    exact ih ((List.mem_cons.mp hk).resolve_left nofun) ((List.mem_cons.mp hk').resolve_left nofun)

/-- The value has been registered, and is not there any more. -/
def Gone (cls : Class K P) (h : List (Event K V P)) (v : V) : Prop :=
  (∃ key, .registered key v ∈ h) ∧ ∀ key, entries cls h key ≠ some v

/-- What is gone does not come back. -/
theorem Gone.cons (hg : Gone cls h v) (hl : Legal cls (e :: h)) : Gone cls (e :: h) v := by
  obtain ⟨⟨key, hkey⟩, hnone⟩ := hg
  refine ⟨⟨key, List.mem_cons_of_mem _ hkey⟩, fun key' he => ?_⟩
  rcases List.mem_cons.mp (hl.mem_registered he) with hreg | hreg
  · subst hreg
    cases hl with
    | registered _ hnew => exact hnew key hkey
  · cases hl with
    | @registered _ key₀ w _ hnew =>
      rw [entries, Function.update_apply] at he
      split_ifs at he
      · cases he; exact hnew key hkey
      · exact hnone _ he
    | cancelled _ => exact hnone _ (entries_of_cancelled he)
    | handled _ => exact hnone _ (entries_of_handled he)

theorem Gone.append (hg : Gone cls h v) (hl : Legal cls (later ++ h)) : Gone cls (later ++ h) v := by
  induction later with
  | nil => exact hg
  | cons e later ih => exact (ih hl.tail).cons hl

/-- A message gets what is registered under its key. -/
theorem Legal.handled_eq {r : Option V} (hl : Legal cls (later ++ .handled p r :: earlier)) :
    r = lookup cls earlier p := by
  have hl := hl.of_append
  cases hl
  rfl

/-- A cancellation reports what is registered under its key. -/
theorem Legal.cancelled_eq {r : Option V} (hl : Legal cls (later ++ .cancelled key r :: earlier)) :
    r = entries cls earlier key := by
  have hl := hl.of_append
  cases hl
  rfl

/-- A message that gets a value has its key. -/
theorem Legal.handled_some (hl : Legal cls (later ++ .handled p (some v) :: earlier)) :
    ∃ key last, cls p = some (key, last) ∧ entries cls earlier key = some v ∧ .registered key v ∈ earlier := by
  obtain ⟨⟨key, last⟩, hc, he⟩ := Option.bind_eq_some_iff.mp hl.handled_eq.symm
  exact ⟨key, last, hc, he, hl.of_append.tail.mem_registered he⟩

/-- No message gets a value that is gone. -/
theorem Gone.not_handled (hg : Gone cls h v) (hl : Legal cls (later ++ h)) (p : P) :
    .handled p (some v) ∉ later := by
  intro hp
  obtain ⟨l₁, l₂, rfl⟩ := List.append_of_mem hp
  rw [List.append_assoc, List.cons_append] at hl
  obtain ⟨key, -, -, he, -⟩ := hl.handled_some
  exact (hg.append hl.of_append.tail).2 key he

/-- It cannot be cancelled. -/
theorem Gone.not_cancelled (hg : Gone cls h v) (hl : Legal cls (later ++ h)) (key : K) :
    .cancelled key (some v) ∉ later := by
  intro hp
  obtain ⟨l₁, l₂, rfl⟩ := List.append_of_mem hp
  rw [List.append_assoc, List.cons_append] at hl
  exact (hg.append hl.of_append.tail).2 key hl.cancelled_eq.symm

/-- What is there under a key is there under no other one. -/
theorem Legal.entries_inj (hl : Legal cls h) (he : entries cls h key = some v) (he' : entries cls h key' = some v) :
    key = key' := hl.key_eq (hl.mem_registered he) (hl.mem_registered he')

/-- Behind a message that takes a value away, that value is gone. -/
theorem Legal.gone_of_last (hl : Legal cls (.handled p (some v) :: earlier)) (hp : cls p = some (key, true)) :
    Gone cls (.handled p (some v) :: earlier) v := by
  have hl' : Legal cls ([] ++ .handled p (some v) :: earlier) := hl
  obtain ⟨key', last, hc, he, hreg⟩ := hl'.handled_some
  rw [hp] at hc
  cases hc
  refine ⟨⟨key, List.mem_cons_of_mem _ hreg⟩, fun key' hk' => ?_⟩
  rw [entries, hp, Option.elim_some, if_pos rfl, Function.update_apply] at hk'
  split_ifs at hk' with hk
  exact hk (hl.tail.entries_inj hk' he)

/-- So it is behind its cancellation. -/
theorem Legal.gone_of_cancelled (hl : Legal cls (.cancelled key (some v) :: earlier)) :
    Gone cls (.cancelled key (some v) :: earlier) v := by
  have hl' : Legal cls ([] ++ .cancelled key (some v) :: earlier) := hl
  have he := hl'.cancelled_eq.symm
  refine ⟨⟨key, List.mem_cons_of_mem _ (hl.tail.mem_registered he)⟩, fun key' hk' => ?_⟩
  rw [entries, Function.update_apply] at hk'
  split_ifs at hk' with hk
  exact hk (hl.tail.entries_inj hk' he)

/-- **The last message**: behind a message that takes a value away, no message gets it. -/
theorem Legal.last (hl : Legal cls (later ++ .handled p (some v) :: earlier)) (hp : cls p = some (key, true))
    (p' : P) : .handled p' (some v) ∉ later :=
  (hl.of_append.gone_of_last hp).not_handled hl p'

/-- **Cancellation**: behind the cancellation of a value, no message gets it. -/
theorem Legal.cancelled_last (hl : Legal cls (later ++ .cancelled key (some v) :: earlier)) (p : P) :
    .handled p (some v) ∉ later :=
  hl.of_append.gone_of_cancelled.not_handled hl p

/-- If every message takes its value away, a value that is cancelled goes to none. -/
theorem Legal.cancelled_or_handled (hl : Legal cls h) (hcls : ∀ p key last, cls p = some (key, last) → last = true)
    (hc : .cancelled key (some v) ∈ h) (p : P) : .handled p (some v) ∉ h := by
  intro hp
  obtain ⟨l₁, l₂, rfl⟩ := List.append_of_mem hp
  obtain ⟨key', last, hkey, -⟩ := hl.handled_some
  obtain rfl := hcls p key' last hkey
  rcases List.mem_append.mp hc with hc | hc
  · exact (hl.of_append.gone_of_last hkey).not_cancelled hl key hc
  · obtain ⟨l₃, l₄, rfl⟩ := List.append_of_mem ((List.mem_cons.mp hc).resolve_left nofun)
    rw [← List.cons_append, ← List.append_assoc] at hl
    exact hl.cancelled_last p (by simp)

/-! ### Keys that are registered once -/

/-- The event takes away what is there under the key. -/
def Event.Ends (cls : Class K P) (key : K) : Event K V P → Prop
  | .registered _ _ => False
  | .cancelled key' _ => key' = key
  | .handled p _ => cls p = some (key, true)

/-- No key is registered twice. -/
def Once (h : List (Event K V P)) : Prop :=
  h.Pairwise fun later earlier => ∀ key v v', later = .registered key v → earlier ≠ .registered key v'

/-- Behind a registration under the key there is an event that ends it. -/
def Ended (cls : Class K P) (h : List (Event K V P)) (key : K) : Prop :=
  ∃ e v, Event.Ends cls key e ∧ [e, .registered key v].Sublist h

theorem entries_of_ends (he : e.Ends cls key) : entries cls (e :: h) key = none := by
  cases e with
  | registered key' v => exact he.elim
  | cancelled key' r =>
    obtain rfl : key' = key := he
    exact Function.update_self ..
  | handled p r =>
    rw [entries, show cls p = some (key, true) from he, Option.elim_some, if_pos rfl, Function.update_self]

theorem entries_of_not_ends (he : ¬ e.Ends cls key) (hreg : ∀ v, e ≠ .registered key v) :
    entries cls (e :: h) key = entries cls h key := by
  cases e with
  | registered key' v =>
    have hne : key ≠ key' := fun hk => hreg v (hk ▸ rfl)
    exact Function.update_of_ne hne ..
  | cancelled key' r =>
    have hne : key ≠ key' := fun hk => he hk.symm
    exact Function.update_of_ne hne ..
  | handled p r =>
    rw [entries]
    cases hc : cls p with
    | none => rfl
    | some c =>
      obtain ⟨key', last⟩ := c
      rw [Option.elim_some]
      split_ifs with hlast
      · have hne : key ≠ key' := by
          rintro rfl
          exact he (hc.trans (by rw [show last = true from hlast]))
        exact Function.update_of_ne hne ..
      · rfl

omit [DecidableEq K] in
theorem ended_cons : Ended cls (e :: h) key ↔ Ended cls h key ∨ e.Ends cls key ∧ ∃ v, .registered key v ∈ h := by
  constructor
  · rintro ⟨e', v, he', hsub⟩
    rcases List.sublist_cons_iff.mp hsub with hsub | ⟨r, heq, hsub⟩
    · exact .inl ⟨e', v, he', hsub⟩
    · cases heq
      exact .inr ⟨he', v, List.singleton_sublist.mp hsub⟩
  · rintro (⟨e', v, he', hsub⟩ | ⟨he, v, hv⟩)
    · exact ⟨e', v, he', hsub.cons _⟩
    · exact ⟨e, v, he, (List.singleton_sublist.mpr hv).cons_cons _⟩

omit [DecidableEq K] in
theorem Ended.mem_registered (h' : Ended cls h key) : ∃ v, .registered key v ∈ h := by
  obtain ⟨e, v, -, hsub⟩ := h'
  exact ⟨v, hsub.subset (by simp)⟩

/-- There is something under a key that is registered once, until it is ended. -/
theorem Once.entries_isSome_iff (ho : Once h) :
    (entries cls h key).isSome ↔ (∃ v, .registered key v ∈ h) ∧ ¬ Ended cls h key := by
  induction h with
  | nil => simp [entries]
  | cons e h ih =>
    obtain ⟨hnew, ho⟩ := List.pairwise_cons.mp ho
    rw [ended_cons]
    by_cases hreg : ∃ v, e = .registered key v
    · -- it is registered now, for the first time
      obtain ⟨v, rfl⟩ := hreg
      have hnever : ¬ Ended cls h key := fun h' => by
        obtain ⟨v', hv'⟩ := h'.mem_registered
        exact hnew _ hv' key v v' rfl rfl
      simp [entries, Event.Ends, hnever]
    have hne : ∀ v, e ≠ .registered key v := fun v he => hreg ⟨v, he⟩
    have hmem : (∃ v, .registered key v ∈ e :: h) ↔ ∃ v, .registered key v ∈ h :=
      exists_congr fun v => List.mem_cons.trans (or_iff_right (hne v).symm)
    rw [hmem]
    by_cases he : e.Ends cls key
    · rw [entries_of_ends he]
      refine iff_of_false (by simp) ?_
      rintro ⟨hv, hnot⟩
      exact hnot (.inr ⟨he, hv⟩)
    · rw [entries_of_not_ends he hne, ih ho]
      simp [he]

end Dispatch
