import AlephZero.Machine.Forking
import AlephZero.Machine.LinkedList

/-!
# Robust lists over forks

The handler of `fork` in `robust.c`: the kernel forgets the robust list of the thread that forks
in the child, where the storage of the thread still says that the kernel knows it.

## The model

The head of the list is of the thread, and the kernel is told of it at the end of
`a0_robust_init_head`. The model remembers which thread has emptied the head. Outside of
`a0_robust_init_thread`, the thread edits its list.

## What is proved

* **`robust_known`** — with any number of threads and processes, started and forked in any order,
  whenever `a0_robust_init_thread` returns, the kernel knows the head of the thread, and the thread
  itself has emptied it, after it began.
-/

namespace AlephZero.Robust

open Forking

variable {ι π μ : Type}

/-- `a0_robust_init_flag` and `a0_robust_head` of a thread, with links to the mutexes `μ`. -/
structure Head (ι μ : Type) where
  initFlag : Bool
  next : Link μ
  futexOffset : ℕ
  pending : Link μ
  /-- Who has emptied it. -/
  emptiedBy : Option ι

/-- `a0_robust_init_thread`, with `a0_robust_reset`; the kernel knows the head or does not. -/
def robustCache : Cache ι (Head ι μ) Bool where
  fresh := ⟨⟨false, .null, 0, .null, none⟩, false⟩
  filled t := t.initFlag
  reset t := { t with initFlag := false }
  fill :=
    [.once,
      .store fun i o => { o with tls := { o.tls with next := .head, emptiedBy := some i } },
      .store fun _ o => { o with tls := { o.tls with futexOffset := 16 } },
      .store fun _ o => { o with tls := { o.tls with pending := .null } },
      .store fun _ o => { o with kern := true },
      .store fun _ o => { o with tls := { o.tls with initFlag := true } }]
  next := id
  uses o o' := ∃ next pending, o' = { o with tls := { o.tls with next, pending } }

/-- The kernel walks the list of this thread, from the futexes on. -/
structure Known (i : ι) (o : Own (Head ι μ) Bool) : Prop where
  known : o.kern = true
  own : o.tls.emptiedBy = some i
  /-- `offsetof(a0_mtx_t, ftx)` -/
  futexOffset : o.tls.futexOffset = 16

theorem robustCache_sound : Sound (robustCache (ι := ι) (μ := μ)) Known where
  fresh := rfl
  reset _ := rfl
  once := List.mem_cons_self
  fill _ _ _ := ⟨rfl, rfl, rfl, rfl⟩
  next _ _ _ h := h
  uses := by
    rintro i o o' ⟨next, pending, rfl⟩ hfilled
    exact ⟨hfilled, fun h => ⟨h.known, h.own, h.futexOffset⟩⟩

/-- **Robust lists are known**: when `a0_robust_init_thread` has returned, the kernel knows the list
of the thread that has called it, which is none that was copied; and so it does as long as the
flag says so. -/
theorem robust_known [DecidableEq ι] [DecidableEq π]
    {σ : Threads ι (Shared ι π (Head ι μ) Bool) (Thread ι π (Head ι μ) Bool)}
    (hσ : (runs robustCache fun _ => True).Reach σ) :
    (∀ r ∈ σ.shared.returned, r.2.tls.initFlag = true ∧ Known r.1 r.2) ∧
      ∀ i, (σ.loc i).pc = .out → (σ.loc i).own.tls.initFlag = true → Known i (σ.loc i).own := by
  obtain ⟨hG, hI⟩ := robustCache_sound.isInvariant.reach hσ
  exact ⟨hG.returned, fun i hpc hflag => ((hI i).out hpc hflag).1⟩

/-- A thread locks a mutex and forks, and its child locks one. -/
theorem robust_known_forked :
    ∃ σ : Threads Bool (Shared Bool Bool (Head Bool Unit) Bool) (Thread Bool Bool (Head Bool Unit) Bool),
      σ.shared.returned.map Prod.fst = [true, false] ∧ (σ.loc false).own.tls.next = .node () ∧
        (σ.loc true).own.tls.next = .head ∧ ∀ r ∈ σ.shared.returned, r.2.tls.initFlag = true ∧ Known r.1 r.2 := by
  have h0 : (runs (robustCache (ι := Bool) (μ := Unit)) fun _ => True).Reach
      ⟨⟨fun _ : Bool => none, []⟩, fun _ => ⟨false, robustCache.fresh, .unborn⟩⟩ := .init ⟨rfl, fun _ => rfl⟩
  have h1 := Threads.reach_act h0 false (.launched false rfl rfl)
  have h2 := Threads.reach_act h1 false (.misses rfl rfl)
  have h3 := Threads.reach_act h2 false (.onceBegins _ _ rfl rfl rfl)
  have h4 := Threads.reach_act h3 false (.registers _ _ rfl rfl)
  have h5 := Threads.reach_act h4 false (.onceEnds _ _ rfl rfl)
  have h6 := Threads.reach_act h5 false (.stores _ _ rfl)
  have h7 := Threads.reach_act h6 false (.stores _ _ rfl)
  have h8 := Threads.reach_act h7 false (.stores _ _ rfl)
  have h9 := Threads.reach_act h8 false (.stores _ _ rfl)
  have h10 := Threads.reach_act h9 false (.stores _ _ rfl)
  have h11 := Threads.reach_act h10 false (.returns rfl)
  have h12 := Threads.reach_act h11 false (.uses _ rfl ⟨.node (), .null, rfl⟩)
  have h13 := Threads.reach_act h12 true (.forked false true _ rfl rfl rfl rfl trivial)
  have h14 := Threads.reach_act h13 true (.misses rfl rfl)
  have h15 := Threads.reach_act h14 true (.onceDone _ _ rfl rfl rfl)
  have h16 := Threads.reach_act h15 true (.stores _ _ rfl)
  have h17 := Threads.reach_act h16 true (.stores _ _ rfl)
  have h18 := Threads.reach_act h17 true (.stores _ _ rfl)
  have h19 := Threads.reach_act h18 true (.stores _ _ rfl)
  have h20 := Threads.reach_act h19 true (.stores _ _ rfl)
  have h21 := Threads.reach_act h20 true (.returns rfl)
  exact ⟨_, rfl, rfl, rfl, (robust_known h21).1⟩

end AlephZero.Robust
