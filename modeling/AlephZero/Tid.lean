import AlephZero.Ftx
import AlephZero.Machine.Forking

/-!
# Thread ids

`tid.c`: each thread keeps the id that the kernel has given to it. Mutexes know their owner by
this id.

## The model

The word `a0_tid_cache` of a thread is zero while it is empty; `a0_tid_reset` is the handler
that empties it in the child of a fork, and is registered behind the first store.

## What is proved

* **`tid_current`** — with any number of threads and processes, started and forked in any
  order, `a0_tid` returns the id of the thread that calls it.
-/

namespace AlephZero

open Forking

variable {ι π : Type}

/-- `a0_tid`, with `a0_tid_reset`. -/
def tidCache (gettid : ι → Tid) : Cache ι Ftx Unit where
  fresh := ⟨0, ()⟩
  filled t := t ≠ 0
  reset _ := 0
  fill := [.store fun i o => { o with tls := (gettid i).val }, .once]
  next := id
  uses _ _ := False

theorem tidCache_sound (gettid : ι → Tid) : Sound (tidCache gettid) fun i o => o.tls = (gettid i).val where
  fresh := rfl
  reset _ := rfl
  once := List.mem_cons_of_mem _ List.mem_cons_self
  fill i _ _ := ⟨decide_eq_true (gettid i).ne_zero, rfl⟩
  next _ _ _ h := h
  uses _ _ _ h := h.elim

/-- **Thread ids are current**: `a0_tid` returns the id of the thread that calls it, and a thread
in no call keeps its own id, or none. -/
theorem tid_current [DecidableEq ι] [DecidableEq π] (gettid : ι → Tid)
    {σ : Threads ι (Shared ι π Ftx Unit) (Thread ι π Ftx Unit)}
    (hσ : (runs (tidCache gettid) fun _ => True).Reach σ) :
    (∀ r ∈ σ.shared.returned, r.2.tls = (gettid r.1).val) ∧
      ∀ i, (σ.loc i).pc = .out → (σ.loc i).own.tls = 0 ∨ (σ.loc i).own.tls = (gettid i).val := by
  obtain ⟨hG, hI⟩ := (tidCache_sound gettid).isInvariant.reach hσ
  refine ⟨fun r hr => (hG.returned r hr).2, fun i hpc => ?_⟩
  by_cases hempty : (σ.loc i).own.tls = 0
  · exact .inl hempty
  · exact .inr ((hI i).out hpc (decide_eq_true hempty)).1

theorem ftxTid_two : ftxTid 2 = 2 := by decide

theorem ftx_two_ne_zero : (2 : Ftx) ≠ 0 := by decide

/-- Two threads, the second one a child of the first. -/
def parentAndChild : Bool → Tid
  | false => ⟨1, ftxTid_one, ftx_one_ne_zero⟩
  | true => ⟨2, ftxTid_two, ftx_two_ne_zero⟩

/-- A thread forks after it has asked for its id, and so does its child. -/
theorem tid_current_forked : ∃ σ : Threads Bool (Shared Bool Bool Ftx Unit) (Thread Bool Bool Ftx Unit),
    (σ.shared.returned.map fun r => (r.1, r.2.tls)) = [(true, 2), (false, 1)] ∧
      ∀ r ∈ σ.shared.returned, r.2.tls = (parentAndChild r.1).val := by
  have h0 : (runs (tidCache parentAndChild) fun _ => True).Reach
      ⟨⟨fun _ : Bool => none, []⟩, fun _ => ⟨false, ⟨0, ()⟩, .unborn⟩⟩ := .init ⟨rfl, fun _ => rfl⟩
  have h1 := Threads.reach_act h0 false (.launched false rfl rfl)
  have h2 := Threads.reach_act h1 false (.misses rfl rfl)
  have h3 := Threads.reach_act h2 false (.stores _ _ rfl)
  have h4 := Threads.reach_act h3 false (.onceBegins [] _ rfl rfl rfl)
  have h5 := Threads.reach_act h4 false (.registers [] _ rfl rfl)
  have h6 := Threads.reach_act h5 false (.onceEnds [] _ rfl rfl)
  have h7 := Threads.reach_act h6 false (.returns rfl)
  have h8 := Threads.reach_act h7 true (.forked false true _ rfl rfl rfl rfl trivial)
  have h9 := Threads.reach_act h8 true (.misses rfl rfl)
  have h10 := Threads.reach_act h9 true (.stores _ _ rfl)
  have h11 := Threads.reach_act h10 true (.onceDone [] _ rfl rfl rfl)
  have h12 := Threads.reach_act h11 true (.returns rfl)
  exact ⟨_, rfl, (tid_current parentAndChild h12).1⟩

end AlephZero
