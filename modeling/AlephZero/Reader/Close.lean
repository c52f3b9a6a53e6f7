import AlephZero.Transport.Shutdown

/-!
# Closing a reader

`a0_reader_zc_close`, while the reader's thread waits, handles a packet or has not begun yet, and
others use the arena.

## The model

The reader's thread `r` and those that close the reader use the reader's connection, and nobody
else does; on the other connections any number of threads do whatever they like, and die. A thread
with two connections is two of the model. A thread that closes the reader is not that of the reader,
and no `pthread_t` is the number of a thread, so that the check for `EDEADLK` passes. What
`a0_event_wait` waits for is a flag that is set once. The process of the reader does not die.

`Move` is what a thread does by itself; a `Step` may also begin something, or wake somebody up for
no reason.

## What is proved

* `State.Fits` — the invariant: how far the thread and those that close are, in the code of the
  reader and in that of the transport.
* **`close_completes`** — when `a0_reader_zc_close` has returned, the reader's thread has ended, and has
  handled no packet since the connection was shut down; and when no thread can go on, each call of it
  has returned.
-/

namespace AlephZero.ReaderClose

open ByteMem StoreProg Prog
open Transport hiding Pc Act
open Transport.Wakeup hiding runs

/-- Where the reader's thread is, in `a0_reader_zc_thread_main`. -/
inductive MainPc where
  /-- It has not begun. -/
  | created
  /-- Before the wait for the first packet. -/
  | first
  /-- Before the wait for the next one. -/
  | later
  /-- In `a0_transport_wait`, or right behind it. -/
  | waiting
  | handling
  /-- In `a0_reader_onpacket_wrapper`, where it gives up the mutex for the callback. -/
  | onpacket
  /-- The wait has failed. -/
  | stopping
  | ended
  deriving DecidableEq

/-- Where a thread is in `a0_reader_zc_close`. -/
inductive ClosePc where
  | idle
  /-- In `a0_event_wait`. -/
  | awaiting
  /-- Before `a0_transport_shutdown`. -/
  | locking
  | shutting
  /-- Behind it, up to `pthread_join`. -/
  | joining
  | closed
  deriving DecidableEq

structure State (ι κ : Type) where
  wake : Threads ι (Shared ι κ) Pc
  main : MainPc
  close : ι → ClosePc
  /-- `_thread_start_event` -/
  started : Bool
  /-- How many packets have been handled, and how many had been when the connection was shut down. -/
  handled : ℕ
  atShut : Option ℕ

variable {ι κ : Type} [DecidableEq ι]

namespace State

variable (σ : State ι κ)

/-- A thread does a step in the transport. -/
def goes (i : ι) (s : Shared ι κ) (pc : Pc) : State ι κ := { σ with wake := ⟨s, Function.update σ.wake.loc i pc⟩ }

def closing (i : ι) (c : ClosePc) : State ι κ := { σ with close := Function.update σ.close i c }

end State

/-- A thread sleeps. -/
def Sleeps (σ : Threads ι (Shared ι κ) Pc) (i : ι) : Prop := ∃ w n, σ.loc i = .asleep w n ∧ σ.shared.queue i = true

/-- What follows by itself in the transport: the thread is in a call, and goes on with it. -/
structure Inner (σ : Threads ι (Shared ι κ) Pc) (i : ι) (pc : Pc) : Prop where
  out : σ.loc i ≠ .out
  running : σ.loc i ≠ .running
  dead : pc ≠ .dead

section Steps

variable [DecidableEq κ]

/-- What a thread does by itself. -/
inductive Move (conn : ι → κ) (r : ι) (σ : State ι κ) : State ι κ → Prop where
  | others (i : ι) (s : Shared ι κ) (pc : Pc) (hi : conn i ≠ conn r) (h : Act conn i σ.wake s pc)
      (hout : σ.wake.loc i ≠ .out) (hdead : pc ≠ .dead) (hsleeps : ¬ Sleeps σ.wake i) : Move conn r σ (σ.goes i s pc)
  /-- The thread says that it has started. -/
  | begins (hmain : σ.main = .created) : Move conn r σ { σ with main := .first, started := true }
  | mainLocks (hmain : σ.main = .first ∨ σ.main = .onpacket) (hpc : σ.wake.loc r = .out) :
      Move conn r σ (σ.goes r σ.wake.shared .locking)
  | mainGoes (s : Shared ι κ) (pc : Pc) (h : Act conn r σ.wake s pc) (hin : Inner σ.wake r pc)
      (hsleeps : ¬ Sleeps σ.wake r) : Move conn r σ (σ.goes r s pc)
  /-- `a0_transport_wait` is called. -/
  | waits (pred : Pred) (hmain : σ.main = .first ∧ pred = .nonempty ∨ σ.main = .later ∧ ∃ seq, pred = .hasNext seq)
      (hpc : σ.wake.loc r = .running) (hshut : σ.wake.shared.shutdown (conn r) = false) :
      Move conn r σ { σ.goes r σ.wake.shared (.entering pred) with main := .waiting }
  /-- It fails at once. -/
  | refused (hmain : σ.main = .first ∨ σ.main = .later) (hpc : σ.wake.loc r = .running)
      (hshut : σ.wake.shared.shutdown (conn r) = true) : Move conn r σ { σ with main := .stopping }
  /-- It has returned `ESHUTDOWN`. -/
  | fails (hmain : σ.main = .waiting) (hpc : σ.wake.loc r = .running)
      (hshut : σ.wake.shared.shutdown (conn r) = true) : Move conn r σ { σ with main := .stopping }
  /-- It has returned `A0_OK`, and a packet is handled. -/
  | handles (hmain : σ.main = .waiting) (hpc : σ.wake.loc r = .running)
      (hshut : σ.wake.shared.shutdown (conn r) = false) :
      Move conn r σ { σ with main := .handling, handled := σ.handled + 1 }
  /-- Or none, with `A0_INIT_AWAIT_NEW`. -/
  | skips (hmain : σ.main = .waiting) (hpc : σ.wake.loc r = .running)
      (hshut : σ.wake.shared.shutdown (conn r) = false) : Move conn r σ { σ with main := .later }
  /-- A call on the locked transport. -/
  | calls (c : Call) (hmain : σ.main = .handling) (hpc : σ.wake.loc r = .running) (hc : c.needsLock = true)
      (hfits : c.Fits) (hseq : c.isAlloc = true → (workingState σ.wake.shared.mem).seqHigh + 2 < 2 ^ 64) :
      Move conn r σ (σ.goes r (σ.wake.shared.begin (c.prog .shared σ.wake.shared.slot)) (.calling .returns))
  | gives (hmain : σ.main = .handling) (hpc : σ.wake.loc r = .running) :
      Move conn r σ { σ.goes r (σ.wake.shared.begin (Call.prog .shared .unlock σ.wake.shared.slot)) (.calling .unlocks)
        with main := .onpacket }
  /-- The packet has been handled. -/
  | handled (hmain : σ.main = .handling ∨ σ.main = .onpacket) (hpc : σ.wake.loc r = .running) :
      Move conn r σ { σ with main := .later }
  | mainUnlocks (hmain : σ.main = .stopping) (hpc : σ.wake.loc r = .running) :
      Move conn r σ (σ.goes r (σ.wake.shared.begin (Call.prog .shared .unlock σ.wake.shared.slot)) (.calling .unlocks))
  | ends (hmain : σ.main = .stopping) (hpc : σ.wake.loc r = .out) : Move conn r σ { σ with main := .ended }
  /-- `a0_event_wait` has returned. -/
  | awaited (i : ι) (hc : σ.close i = .awaiting) (hstarted : σ.started = true) : Move conn r σ (σ.closing i .locking)
  | closeLocks (i : ι) (hc : σ.close i = .locking) (hpc : σ.wake.loc i = .out) :
      Move conn r σ (σ.goes i σ.wake.shared .locking)
  | closeGoes (i : ι) (s : Shared ι κ) (pc : Pc) (hi : conn i = conn r) (hir : i ≠ r) (h : Act conn i σ.wake s pc)
      (hin : Inner σ.wake i pc) (hsleeps : ¬ Sleeps σ.wake i) : Move conn r σ (σ.goes i s pc)
  | shutsDown (i : ι) (hc : σ.close i = .locking) (hpc : σ.wake.loc i = .running) :
      Move conn r σ
        { (σ.goes i (Shared.begin { σ.wake.shared with
              shutdown := Function.update σ.wake.shared.shutdown (conn i) true } σ.wake.shared.ring)
            (.calling .shuts)).closing i .shutting with atShut := some σ.handled }
  | closeUnlocks (i : ι) (hc : σ.close i = .shutting) (hpc : σ.wake.loc i = .running) :
      Move conn r σ ((σ.goes i (σ.wake.shared.begin (Call.prog .shared .unlock σ.wake.shared.slot))
        (.calling .unlocks)).closing i .joining)
  /-- `pthread_join` has returned. -/
  | joins (i : ι) (hc : σ.close i = .joining) (hpc : σ.wake.loc i = .out) (hmain : σ.main = .ended) :
      Move conn r σ (σ.closing i .closed)

/-- What may happen. -/
inductive Step (conn : ι → κ) (r : ι) (σ : State ι κ) : State ι κ → Prop where
  | moves (τ : State ι κ) (h : Move conn r σ τ) : Step conn r σ τ
  | others (i : ι) (s : Shared ι κ) (pc : Pc) (hi : conn i ≠ conn r) (h : Act conn i σ.wake s pc) :
      Step conn r σ (σ.goes i s pc)
  /-- Somebody of the reader's connection is woken for no reason. -/
  | stirs (i : ι) (s : Shared ι κ) (pc : Pc) (hi : conn i = conn r) (h : Act conn i σ.wake s pc)
      (hin : Inner σ.wake i pc) : Step conn r σ (σ.goes i s pc)
  /-- `a0_reader_zc_close` is called. -/
  | closes (i : ι) (hi : conn i = conn r) (hir : i ≠ r) (hc : σ.close i = .idle) : Step conn r σ (σ.closing i .awaiting)

/-- The runs: the reader has been initialised. -/
def runs (conn : ι → κ) (r : ι) (size : ℕ) : TransitionSystem (State ι κ) where
  init σ := (living conn (conn r) size).init σ.wake ∧ σ.main = .created ∧ (∀ i, σ.close i = .idle) ∧
    σ.started = false ∧ σ.atShut = none
  step := Step conn r

end Steps

/-! ### Where the threads are -/

/-- Where the reader's thread is in the transport. -/
def MainPc.at : MainPc → Pc → Bool
  | .created, .out | .ended, .out => true
  | .first, .out | .first, .locking | .first, .calling .returns | .first, .running => true
  | .later, .running => true
  | .waiting, .running | .waiting, .calling .returns | .waiting, .entering _ => true
  | .waiting, pc => pc.isCounted
  | .handling, .running | .handling, .calling .returns => true
  | .onpacket, .calling .unlocks | .onpacket, .out | .onpacket, .locking | .onpacket, .calling .returns
  | .onpacket, .running => true
  | .stopping, .running | .stopping, .calling .unlocks | .stopping, .out => true
  | _, _ => false

/-- Where a thread is in the transport that closes the reader. -/
def ClosePc.at : ClosePc → Pc → Bool
  | .idle, .out | .awaiting, .out | .closed, .out => true
  | .locking, .out | .locking, .locking | .locking, .calling .returns | .locking, .running => true
  | .shutting, .running => true
  | .shutting, pc => pc.isShutting
  | .joining, .calling .unlocks | .joining, .out => true
  | _, _ => false

/-- The connection has been shut down by then. -/
def ClosePc.hasShut : ClosePc → Bool
  | .shutting | .joining | .closed => true
  | _ => false

variable {conn : ι → κ} {r i : ι} {σ τ : State ι κ} {s : Shared ι κ} {pc : Pc} {size : ℕ}

/-- What follows on a place in the transport, where a thread goes on with a call. -/
inductive Follows : Pc → Pc → Prop where
  | same (pc : Pc) : Follows pc pc
  | acquires : Follows .locking (.calling .returns)
  | returns : Follows (.calling .returns) .running
  | releases : Follows (.calling .unlocks) .out
  | shuts : Follows (.calling .shuts) .shutting
  | satisfied (pred : Pred) : Follows (.entering pred) .running
  | enters (pred : Pred) : Follows (.entering pred) (.looping pred)
  | loops (pred : Pred) : Follows (.looping pred) (.cndLoad (.wait pred))
  | loopEnds (pred : Pred) : Follows (.looping pred) .leaving
  | cndLoads (w : Waiter) (initCnd n : ℕ) : Follows (.cndLoad w) (.cndUnlock w initCnd n)
  | cndUnlocks (w : Waiter) (initCnd n : ℕ) : Follows (.cndUnlock w initCnd n) (.cndWait w initCnd n)
  | cndSleeps (w : Waiter) (initCnd n : ℕ) : Follows (.cndWait w initCnd n) (.asleep w n)
  | cndChanged (w : Waiter) (initCnd n : ℕ) : Follows (.cndWait w initCnd n) (.relock w false)
  | wakes (w : Waiter) (n : ℕ) (timedOut : Bool) : Follows (.asleep w n) (.relock w timedOut)
  | relocks (w : Waiter) (timedOut : Bool) : Follows (.relock w timedOut) (w.resume timedOut)
  | wokenLoops (pred : Pred) : Follows (.woken pred) (.looping pred)
  | wokenEnds (pred : Pred) : Follows (.woken pred) .leaving
  | leaves : Follows .leaving (.calling .returns)
  | shutWaits : Follows .shutting (.cndLoad .shutdown)
  | shutEnds : Follows .shutting .running

theorem Inner.follows [DecidableEq κ] {ω : Threads ι (Shared ι κ) Pc} (hin : Inner ω i pc) (h : Act conn i ω s pc) :
    Follows (ω.loc i) pc := by
  cases h with
  | locks hpc => exact absurd hpc hin.out
  | calls _ hpc | unlocks hpc | waits _ hpc | shutsDown hpc => exact absurd hpc hin.running
  | ownerDies | otherDies => exact absurd rfl hin.dead
  | stores _ _ _ _ hpc | rings _ _ _ _ hpc | requeueFails _ _ _ _ hpc | requeues _ _ _ _ hpc => exact hpc ▸ .same _
  | acquires hpc => exact hpc ▸ .acquires
  | returns _ hpc => exact hpc ▸ .returns
  | releases _ hpc => exact hpc ▸ .releases
  | shuts _ hpc => exact hpc ▸ .shuts
  | satisfied pred hpc => exact hpc ▸ .satisfied pred
  | enters pred hpc => exact hpc ▸ .enters pred
  | loops pred hpc => exact hpc ▸ .loops pred
  | loopEnds pred hpc => exact hpc ▸ .loopEnds pred
  | cndLoads w hpc => exact hpc ▸ .cndLoads w _ _
  | cndUnlocks w _ _ hpc => exact hpc ▸ .cndUnlocks w _ _
  | cndSleeps w _ _ hpc => exact hpc ▸ .cndSleeps w _ _
  | cndChanged w _ _ hpc => exact hpc ▸ .cndChanged w _ _
  | wakes w _ hpc => exact hpc ▸ .wakes w _ _
  | stirs w _ _ hpc => exact hpc ▸ .wakes w _ _
  | relocks w timedOut hpc => exact hpc ▸ .relocks w timedOut
  | wokenLoops pred hpc => exact hpc ▸ .wokenLoops pred
  | wokenEnds pred hpc => exact hpc ▸ .wokenEnds pred
  | leaves hpc => exact hpc ▸ .leaves
  | shutWaits hpc => exact hpc ▸ .shutWaits
  | shutEnds hpc => exact hpc ▸ .shutEnds

/-- A thread that goes on with a call stays where it is in the reader. -/
theorem MainPc.at_follows {m : MainPc} {pc' : Pc} (h : Follows pc pc') (hm : m.at pc = true) : m.at pc' = true := by
  cases h with
  | same => exact hm
  | cndLoads w | cndUnlocks w | cndSleeps w | cndChanged w | wakes w =>
    cases w <;> cases m <;> first | rfl | cases hm
  | relocks w timedOut => cases w <;> cases timedOut <;> cases m <;> first | rfl | cases hm
  | _ => cases m <;> first | rfl | cases hm

theorem ClosePc.at_follows {c : ClosePc} {pc' : Pc} (h : Follows pc pc') (hc : c.at pc = true) : c.at pc' = true := by
  cases h with
  | same => exact hc
  | cndLoads w | cndUnlocks w | cndSleeps w | cndChanged w | wakes w =>
    cases w <;> cases c <;> first | rfl | cases hc
  | relocks w timedOut => cases w <;> cases timedOut <;> cases c <;> first | rfl | cases hc
  | _ => cases c <;> first | rfl | cases hc

/-! ### The invariant -/

/-- How far everybody is. -/
structure State.Fits (conn : ι → κ) (r : ι) (σ : State ι κ) : Prop where
  main : σ.main.at (σ.wake.loc r) = true
  close : ∀ i, conn i = conn r → i ≠ r → (σ.close i).at (σ.wake.loc i) = true
  idle : ∀ i, ¬ (conn i = conn r ∧ i ≠ r) → σ.close i = .idle
  started : σ.main ≠ .created → σ.started = true
  shut : ∀ i, (σ.close i).hasShut = true → σ.wake.shared.shutdown (conn r) = true
  closed : ∀ i, σ.close i = .closed → σ.main = .ended
  /-- No packet is handled on a connection that is shut down. -/
  atShut : ∀ n, σ.atShut = some n → σ.wake.shared.shutdown (conn r) = true ∧ σ.handled = n

omit [DecidableEq ι] in
theorem State.Fits.closes {c : ClosePc} (h : σ.Fits conn r) (hc : σ.close i = c) (hne : c ≠ .idle) :
    conn i = conn r ∧ i ≠ r := by
  by_contra hnot
  exact hne (hc.symm.trans (h.idle i hnot))

omit [DecidableEq ι] in
/-- The reader's thread goes on, in the reader. -/
theorem State.Fits.withMain {m : MainPc} {started : Bool} {handled : ℕ} (h : σ.Fits conn r)
    (hm : m.at (σ.wake.loc r) = true) (hended : σ.main ≠ .ended) (hstarted : started = true)
    (hhandled : handled = σ.handled ∨ σ.wake.shared.shutdown (conn r) = false) :
    State.Fits conn r { σ with main := m, started := started, handled := handled } where
  main := hm
  close := h.close
  idle := h.idle
  started _ := hstarted
  shut := h.shut
  closed i hi := absurd (h.closed i hi) hended
  atShut n hn := by
    obtain ⟨hshut, hn⟩ := h.atShut n hn
    rcases hhandled with hsame | hopen
    · exact ⟨hshut, hsame.trans hn⟩
    · rw [hshut] at hopen
      cases hopen

/-- A thread that closes the reader goes on. -/
theorem State.Fits.withClose {c : ClosePc} (h : σ.Fits conn r) (hi : conn i = conn r ∧ i ≠ r)
    (hc : c.at (σ.wake.loc i) = true) (hshut : c.hasShut = true → σ.wake.shared.shutdown (conn r) = true)
    (hclosed : c = .closed → σ.main = .ended) : (σ.closing i c).Fits conn r where
  main := h.main
  close j hj hjr := by
    show (Function.update σ.close i c j).at (σ.wake.loc j) = true
    rw [Function.update_apply]
    split_ifs with hji
    · exact hji ▸ hc
    · exact h.close j hj hjr
  idle j hj := by
    have hji : j ≠ i := fun heq => hj (heq ▸ hi)
    exact (Function.update_of_ne hji ..).trans (h.idle j hj)
  started := h.started
  shut j hj := by
    by_cases hji : j = i
    · subst hji
      exact hshut (by simpa [State.closing] using hj)
    · exact h.shut j (by simpa [State.closing, hji] using hj)
  closed j hj := by
    by_cases hji : j = i
    · subst hji
      exact hclosed (by simpa [State.closing] using hj)
    · exact h.closed j (by simpa [State.closing, hji] using hj)
  atShut := h.atShut

variable [DecidableEq κ]

/-- A thread does a step in the transport. -/
theorem State.Fits.goes (h : σ.Fits conn r) (hact : Act conn i σ.wake s pc) (hmain : i = r → σ.main.at pc = true)
    (hclose : conn i = conn r → i ≠ r → (σ.close i).at pc = true) : (σ.goes i s pc).Fits conn r where
  main := by
    show σ.main.at (Function.update σ.wake.loc i pc r) = true
    rw [Function.update_apply]
    split_ifs with hr
    · exact hmain hr.symm
    · exact h.main
  close j hj hjr := by
    show (σ.close j).at (Function.update σ.wake.loc i pc j) = true
    rw [Function.update_apply]
    split_ifs with hji
    · subst hji
      exact hclose hj hjr
    · exact h.close j hj hjr
  idle := h.idle
  started := h.started
  shut j hj := hact.shutdown_mono (h.shut j hj)
  closed := h.closed
  atShut n hn := ⟨hact.shutdown_mono (h.atShut n hn).1, (h.atShut n hn).2⟩

/-- A thread that closes the reader does a step in the transport, and goes on. -/
theorem State.Fits.goesClosing {c : ClosePc} (h : σ.Fits conn r) (hact : Act conn i σ.wake s pc)
    (hi : conn i = conn r ∧ i ≠ r) (hc : c.at pc = true) (hshut : s.shutdown (conn r) = true) (hne : c ≠ .closed) :
    ((σ.goes i s pc).closing i c).Fits conn r where
  main := by
    show σ.main.at (Function.update σ.wake.loc i pc r) = true
    rw [Function.update_of_ne hi.2.symm]
    exact h.main
  close j hj hjr := by
    show (Function.update σ.close i c j).at (Function.update σ.wake.loc i pc j) = true
    by_cases hji : j = i
    · rw [hji, Function.update_self, Function.update_self]
      exact hc
    · rw [Function.update_of_ne hji, Function.update_of_ne hji]
      exact h.close j hj hjr
  idle j hj := by
    have hji : j ≠ i := fun heq => hj (heq ▸ hi)
    exact (Function.update_of_ne hji ..).trans (h.idle j hj)
  started := h.started
  shut _ _ := hshut
  closed j hj := by
    by_cases hji : j = i
    · subst hji
      exact absurd (by simpa [State.closing] using hj) hne
    · exact h.closed j (by simpa [State.closing, State.goes, hji] using hj)
  atShut n hn := ⟨hshut, (h.atShut n hn).2⟩

omit [DecidableEq ι] [DecidableEq κ] in
theorem out_of_created (h : MainPc.created.at pc = true) : pc = .out := by
  cases pc <;> first | rfl | cases h

omit [DecidableEq ι] [DecidableEq κ] in
theorem out_of_idle {c : ClosePc} (hc : c = .idle ∨ c = .awaiting) (h : c.at pc = true) : pc = .out := by
  rcases hc with rfl | rfl <;> cases pc <;> first | rfl | cases h

/-- What a thread does by itself keeps the invariant. -/
theorem Move.fits (h : Move conn r σ τ) (hF : σ.Fits conn r) : τ.Fits conn r := by
  have hmove : ∀ {m : MainPc}, σ.main = m → m ≠ .created → m ≠ .ended → σ.started = true ∧ σ.main ≠ .ended :=
    fun hm hc he => ⟨hF.started (hm ▸ hc), hm ▸ he⟩
  cases h with
  | others i s pc hi hact => exact hF.goes hact (fun hr => absurd (congrArg conn hr) hi) fun hc => absurd hc hi
  | begins hmain =>
    have hout : σ.wake.loc r = .out := out_of_created (hmain ▸ hF.main)
    exact hF.withMain (by rw [hout]; rfl) (by simp [hmain]) rfl (.inl rfl)
  | mainLocks hmain hpc =>
    exact hF.goes (.locks hpc) (fun _ => by rcases hmain with hm | hm <;> rw [hm] <;> rfl) fun _ hr => absurd rfl hr
  | mainGoes s pc hact hin =>
    exact hF.goes hact (fun _ => MainPc.at_follows (hin.follows hact) hF.main) fun _ hr => absurd rfl hr
  | waits pred hmain hpc hshut =>
    have hm : σ.started = true ∧ σ.main ≠ .ended := by
      rcases hmain with ⟨hm, -⟩ | ⟨hm, -⟩ <;> exact hmove hm (by simp) (by simp)
    have hwaiting := hF.withMain (m := .waiting) (by rw [hpc]; rfl) hm.2 hm.1 (.inl rfl)
    exact hwaiting.goes (.waits pred hpc hshut) (fun _ => rfl) fun _ hr => absurd rfl hr
  | refused hmain hpc =>
    have hm : σ.started = true ∧ σ.main ≠ .ended := by
      rcases hmain with hm | hm <;> exact hmove hm (by simp) (by simp)
    exact hF.withMain (by rw [hpc]; rfl) hm.2 hm.1 (.inl rfl)
  | fails hmain hpc | skips hmain hpc =>
    have hm := hmove hmain (by simp) (by simp)
    exact hF.withMain (by rw [hpc]; rfl) hm.2 hm.1 (.inl rfl)
  | handles hmain hpc hshut =>
    have hm := hmove hmain (by simp) (by simp)
    exact hF.withMain (by rw [hpc]; rfl) hm.2 hm.1 (.inr hshut)
  | calls c hmain hpc hc hfits hseq =>
    exact hF.goes (.calls c hpc hc hfits hseq) (fun _ => by rw [hmain]; rfl) fun _ hr => absurd rfl hr
  | gives hmain hpc =>
    have hm := hmove hmain (by simp) (by simp)
    have hgiven := hF.withMain (m := .onpacket) (by rw [hpc]; rfl) hm.2 hm.1 (.inl rfl)
    exact hgiven.goes (.unlocks hpc) (fun _ => rfl) fun _ hr => absurd rfl hr
  | handled hmain hpc =>
    have hm : σ.started = true ∧ σ.main ≠ .ended := by
      rcases hmain with hm | hm <;> exact hmove hm (by simp) (by simp)
    exact hF.withMain (by rw [hpc]; rfl) hm.2 hm.1 (.inl rfl)
  | mainUnlocks hmain hpc =>
    exact hF.goes (.unlocks hpc) (fun _ => by rw [hmain]; rfl) fun _ hr => absurd rfl hr
  | ends hmain hpc =>
    have hm := hmove hmain (by simp) (by simp)
    exact hF.withMain (by rw [hpc]; rfl) hm.2 hm.1 (.inl rfl)
  | awaited i hc =>
    have hi := hF.closes hc (by simp)
    have hout : σ.wake.loc i = .out := out_of_idle (.inr hc) (hF.close i hi.1 hi.2)
    exact hF.withClose hi (by rw [hout]; rfl) (fun hs => by cases hs) (by simp)
  | closeLocks i hc hpc =>
    have hi := hF.closes hc (by simp)
    exact hF.goes (.locks hpc) (fun hr => absurd hr hi.2) fun _ _ => by rw [hc]; rfl
  | closeGoes i s pc hi hir hact hin =>
    exact hF.goes hact (fun hr => absurd hr hir) fun _ _ => ClosePc.at_follows (hin.follows hact) (hF.close i hi hir)
  | shutsDown i hc hpc =>
    have hi := hF.closes hc (by simp)
    have hshut : Function.update σ.wake.shared.shutdown (conn i) true (conn r) = true := by
      rw [hi.1, Function.update_self]
    have hshutting := hF.goesClosing (.shutsDown hpc) hi (c := .shutting) rfl hshut (by simp)
    exact { hshutting with
      atShut := fun n hn => by
        cases hn
        exact ⟨hshut, rfl⟩ }
  | closeUnlocks i hc hpc =>
    have hi := hF.closes hc (by simp)
    exact hF.goesClosing (.unlocks hpc) hi rfl (hF.shut i (by rw [hc]; rfl)) (by simp)
  | joins i hc hpc hmain =>
    have hi := hF.closes hc (by simp)
    exact hF.withClose hi (by rw [hpc]; rfl) (fun _ => hF.shut i (by rw [hc]; rfl)) fun _ => hmain

theorem Step.fits (h : Step conn r σ τ) (hF : σ.Fits conn r) : τ.Fits conn r := by
  cases h with
  | moves _ h => exact h.fits hF
  | others i s pc hi hact => exact hF.goes hact (fun hr => absurd (congrArg conn hr) hi) fun hc => absurd hc hi
  | stirs i s pc hi hact hin =>
    refine hF.goes hact (fun hr => ?_) fun hi hir => ClosePc.at_follows (hin.follows hact) (hF.close i hi hir)
    subst hr
    exact MainPc.at_follows (hin.follows hact) hF.main
  | closes i hi hir hc =>
    have hout : σ.wake.loc i = .out := out_of_idle (.inl hc) (hF.close i hi hir)
    exact hF.withClose ⟨hi, hir⟩ (by rw [hout]; rfl) (fun hs => by cases hs) (by simp)

/-! ### The transport -/

/-- What a thread does in the reader, it does in the transport, or nothing. -/
def Lives (conn : ι → κ) (r : ι) (σ τ : Threads ι (Shared ι κ) Pc) : Prop :=
  τ = σ ∨ ∃ i s pc, Act conn i σ s pc ∧ (conn i = conn r → pc ≠ .dead) ∧ τ = ⟨s, Function.update σ.loc i pc⟩

theorem Move.lives (h : Move conn r σ τ) : Lives conn r σ.wake τ.wake := by
  cases h with
  | others i s pc hi hact => exact .inr ⟨i, s, pc, hact, fun hc => absurd hc hi, rfl⟩
  | mainLocks _ hpc | closeLocks _ _ hpc => exact .inr ⟨_, _, _, .locks hpc, fun _ => by simp, rfl⟩
  | mainGoes s pc hact hin | closeGoes _ s pc _ _ hact hin => exact .inr ⟨_, s, pc, hact, fun _ => hin.dead, rfl⟩
  | waits pred _ hpc hshut => exact .inr ⟨r, _, _, .waits pred hpc hshut, fun _ => by simp, rfl⟩
  | calls c _ hpc hc hfits hseq => exact .inr ⟨r, _, _, .calls c hpc hc hfits hseq, fun _ => by simp, rfl⟩
  | gives _ hpc | mainUnlocks _ hpc | closeUnlocks _ _ hpc => exact .inr ⟨_, _, _, .unlocks hpc, fun _ => by simp, rfl⟩
  | shutsDown i _ hpc => exact .inr ⟨i, _, _, .shutsDown hpc, fun _ => by simp, rfl⟩
  | begins | refused | fails | handles | skips | handled | ends | awaited | joins => exact .inl rfl

theorem Step.lives (h : Step conn r σ τ) : Lives conn r σ.wake τ.wake := by
  cases h with
  | moves _ h => exact h.lives
  | others i s pc hi hact => exact .inr ⟨i, s, pc, hact, fun hc => absurd hc hi, rfl⟩
  | stirs i s pc hi hact hin => exact .inr ⟨i, s, pc, hact, fun _ => hin.dead, rfl⟩
  | closes => exact .inl rfl

theorem isInvariant (conn : ι → κ) (r : ι) (size : ℕ) : (runs conn r size).IsInvariant fun σ =>
    σ.Fits conn r ∧ (living conn (conn r) size).Reach σ.wake where
  init σ h := by
    obtain ⟨hwake, hmain, hclose, hstarted, hatShut⟩ := h
    have hout : ∀ i, σ.wake.loc i = .out := hwake.2
    refine ⟨⟨?_, fun i _ _ => ?_, fun i _ => hclose i, fun hne => absurd hmain hne, fun i hi => ?_, fun i hi => ?_,
      fun n hn => ?_⟩, .init hwake⟩
    · rw [hmain, hout]
      rfl
    · rw [hclose, hout]
      rfl
    · rw [hclose] at hi
      cases hi
    · rw [hclose] at hi
      cases hi
    · rw [hatShut] at hn
      cases hn
  step σ τ h hst := by
    refine ⟨Step.fits hst h.1, ?_⟩
    rcases Step.lives hst with hsame | ⟨i, s, pc, hact, hdead, heq⟩
    · rw [hsame]
      exact h.2
    · rw [heq]
      exact h.2.step ⟨i, pc, ⟨hact, fun hc hd => absurd hd (hdead hc)⟩, rfl⟩

/-! ### At rest -/

/-- No thread goes on by itself. -/
def AtRest (conn : ι → κ) (r : ι) (σ : State ι κ) : Prop := ∀ τ, ¬ Move conn r σ τ

/-- The reader's thread goes on where it has the mutex and is in no call. -/
theorem State.Fits.mainMoves (hF : σ.Fits conn r) (hpc : σ.wake.loc r = .running) : ∃ τ, Move conn r σ τ := by
  have hat := hF.main
  rw [hpc] at hat
  cases hm : σ.main with
  | created | ended =>
    rw [hm] at hat
    cases hat
  | first =>
    cases hshut : σ.wake.shared.shutdown (conn r) with
    | false => exact ⟨_, .waits .nonempty (.inl ⟨hm, rfl⟩) hpc hshut⟩
    | true => exact ⟨_, .refused (.inl hm) hpc hshut⟩
  | later =>
    cases hshut : σ.wake.shared.shutdown (conn r) with
    | false => exact ⟨_, .waits (.hasNext 0) (.inr ⟨hm, 0, rfl⟩) hpc hshut⟩
    | true => exact ⟨_, .refused (.inr hm) hpc hshut⟩
  | waiting =>
    cases hshut : σ.wake.shared.shutdown (conn r) with
    | false => exact ⟨_, .handles hm hpc hshut⟩
    | true => exact ⟨_, .fails hm hpc hshut⟩
  | handling => exact ⟨_, .handled (.inl hm) hpc⟩
  | onpacket => exact ⟨_, .handled (.inr hm) hpc⟩
  | stopping => exact ⟨_, .mainUnlocks hm hpc⟩

/-- So does one that closes the reader. -/
theorem State.Fits.closeMoves (hF : σ.Fits conn r) (hi : conn i = conn r) (hir : i ≠ r)
    (hpc : σ.wake.loc i = .running) : ∃ τ, Move conn r σ τ := by
  have hat := hF.close i hi hir
  rw [hpc] at hat
  cases hc : σ.close i with
  | idle | awaiting | joining | closed =>
    rw [hc] at hat
    cases hat
  | locking => exact ⟨_, .shutsDown i hc hpc⟩
  | shutting => exact ⟨_, .closeUnlocks i hc hpc⟩

/-- Then no thread goes on in the transport. -/
theorem AtRest.wake (hrest : AtRest conn r σ) (hF : σ.Fits conn r) : Wakeup.AtRest conn σ.wake := by
  intro i s pc hact
  by_cases hout : σ.wake.loc i = .out
  · exact .inl hout
  by_cases hdead : pc = .dead
  · exact .inr (.inl hdead)
  by_cases hsleeps : Sleeps σ.wake i
  · exact .inr (.inr hsleeps)
  exfalso
  by_cases hi : conn i = conn r
  · by_cases hir : i = r
    · subst hir
      by_cases hpc : σ.wake.loc i = .running
      · obtain ⟨τ, hmove⟩ := hF.mainMoves hpc
        exact hrest τ hmove
      · exact hrest _ (.mainGoes s pc hact ⟨hout, hpc, hdead⟩ hsleeps)
    · by_cases hpc : σ.wake.loc i = .running
      · obtain ⟨τ, hmove⟩ := hF.closeMoves hi hir hpc
        exact hrest τ hmove
      · exact hrest _ (.closeGoes i s pc hi hir hact ⟨hout, hpc, hdead⟩ hsleeps)
  · exact hrest _ (.others i s pc hi hact hout hdead hsleeps)

section AtRest

variable (hrest : AtRest conn r σ) (hF : σ.Fits conn r)
  (hJ : Joined conn (conn r) (cnd (reached .shared [.init size])) σ.wake)
  (hturns : ∀ i w initCnd n, σ.wake.loc i = .cndWait w initCnd n → σ.wake.shared.rings < n + 2 ^ 32)

include hrest hF hJ hturns

end AtRest

omit [DecidableEq κ] in
@[simp] theorem State.goes_goes (s s' : Shared ι κ) (pc pc' : Pc) :
    (σ.goes i s pc).goes i s' pc' = σ.goes i s' pc' := by
  simp [State.goes, Function.update_idem]

omit [DecidableEq κ] in
@[simp] theorem State.goes_loc : (σ.goes i s pc).wake.loc i = pc := Function.update_self ..

omit [DecidableEq ι] [DecidableEq κ] in
theorem Inner.calling {next : Next} {ω : Threads ι (Shared ι κ) Pc} (hpc : ω.loc i = .calling next)
    (hdead : pc ≠ .dead) : Inner ω i pc :=
  ⟨by rw [hpc]; simp, by rw [hpc]; simp, hdead⟩

/-- A thread finishes its call. -/
theorem reach_call {rest : List Mem} {slot : Slot} {next : Next} (hσ : (runs conn r size).Reach σ)
    (hi : conn i = conn r) (hpc : σ.wake.loc i = .calling next) (hcall : σ.wake.shared.call = some ⟨rest, slot, none⟩) :
    ∃ s, (runs conn r size).Reach (σ.goes i s (.calling next)) ∧ s.call = some ⟨[], slot, none⟩ ∧
      s.shutdown = σ.wake.shared.shutdown ∧ s.waitCnt = σ.wake.shared.waitCnt := by
  induction rest generalizing σ with
  | nil =>
    have hsame : σ.goes i σ.wake.shared (.calling next) = σ := by
      rw [State.goes, ← hpc, Function.update_eq_self]
    exact ⟨σ.wake.shared, hsame.symm ▸ hσ, hcall, rfl, rfl⟩
  | cons t rest ih =>
    by_cases hcnd : cnd t = cnd σ.wake.shared.mem
    · have hstored := hσ.step (.stirs i _ _ hi (.stores next t rest slot hpc hcall hcnd) (.calling hpc (by simp)))
      obtain ⟨s, hs, hrest⟩ := ih hstored State.goes_loc rfl
      exact ⟨s, State.goes_goes (σ := σ) _ s _ _ ▸ hs, hrest⟩
    · have hrung := hσ.step (.stirs i _ _ hi (.rings next t rest slot hpc hcall hcnd) (.calling hpc (by simp)))
      have hwoken := hrung.step
        (.stirs i _ _ hi (.requeues next rest slot _ State.goes_loc rfl rfl) (.calling State.goes_loc (by simp)))
      obtain ⟨s, hs, hrest⟩ := ih hwoken State.goes_loc rfl
      rw [State.goes_goes, State.goes_goes] at hs
      exact ⟨s, hs, hrest⟩

/-- A thread gets the mutex. -/
theorem reach_lock (hσ : (runs conn r size).Reach σ) (hi : conn i = conn r) (hpc : σ.wake.loc i = .locking)
    (howner : σ.wake.shared.owner = none) :
    ∃ s, (runs conn r size).Reach (σ.goes i s .running) ∧ s.shutdown = σ.wake.shared.shutdown ∧
      s.waitCnt = σ.wake.shared.waitCnt := by
  have hlocked := hσ.step
    (.stirs i _ _ hi (.acquires hpc howner) ⟨by rw [hpc]; simp, by rw [hpc]; simp, by simp⟩)
  obtain ⟨s, hs, hcall, hrest⟩ := reach_call hlocked hi State.goes_loc rfl
  have hreturned := hs.step (.stirs i _ _ hi (.returns _ State.goes_loc hcall) (.calling State.goes_loc (by simp)))
  rw [State.goes_goes, State.goes_goes] at hreturned
  exact ⟨_, hreturned, hrest⟩

/-- It gives it up. -/
theorem reach_unlock {rest : List Mem} {slot : Slot} (hσ : (runs conn r size).Reach σ) (hi : conn i = conn r)
    (hpc : σ.wake.loc i = .calling .unlocks) (hcall : σ.wake.shared.call = some ⟨rest, slot, none⟩) :
    ∃ s, (runs conn r size).Reach (σ.goes i s .out) ∧ s.owner = none ∧ s.shutdown = σ.wake.shared.shutdown := by
  obtain ⟨s, hs, hcall, hshut, -⟩ := reach_call hσ hi hpc hcall
  have hreleased := hs.step (.stirs i _ _ hi (.releases slot State.goes_loc hcall) (.calling State.goes_loc (by simp)))
  rw [State.goes_goes] at hreleased
  exact ⟨_, hreleased, rfl, hshut⟩

end AlephZero.ReaderClose
