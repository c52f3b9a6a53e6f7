import AlephZero.Err
import AlephZero.Ftx
import AlephZero.Machine.Threads
import Mathlib.Data.Nat.Notation
import Mathlib.Algebra.Group.Nat.Defs

/-!
# The deadman mutex

`deadman_mtx.c`: any number of threads that lock and unlock deadman objects of one shared
token, and wait for it to be locked and unlocked. A step is one atomic load, store or
compare-and-swap of the token, or one call of the kernel.

## The model

A deadman object is of one thread; its `_is_owner` is read and written with the step beside
it. `_shutdown` is set by other threads at any time, so a load of it gives either value, and
the broadcasts of `a0_deadman_mtx_shutdown` come at any time.

The kernel keeps the threads that sleep on the word. A wait may fail, and may end for no
reason. A thread may die at any time; if the word has its id, then the kernel marks the word
and wakes at most one of those asleep. A new thread may get the id of a dead one.

With the token goes what has happened to it so far. A tenure begins with the
compare-and-swap of an owner and ends with its release or its death; the tenures are counted
from 1. A thread remembers what `a0_deadman_mtx_wait_locked` has given it.
-/

namespace AlephZero

namespace Deadman

/-- The shared token, and the kernel's queue of it. -/
structure SharedToken (ι : Type) where
  ftx : Ftx
  tkn : ℕ
  /-- Who sleeps on `ftx`. -/
  asleep : ι → Bool
  /-- Whose tenure it is. -/
  holder : Option ι
  /-- The holder has incremented `tkn`. -/
  counted : Bool
  /-- How the tenures ended, the last one first: by death? -/
  ends : List Bool
  /-- The tokens of the owners, the last one first. -/
  tokens : List ℕ

namespace SharedToken

variable {ι : Type} [DecidableEq ι] (s : SharedToken ι)

/-- A token of zeroes. -/
def fresh : SharedToken ι := ⟨0, 0, fun _ => false, none, false, [], []⟩

/-- How many tenures have begun. -/
def begun : ℕ := s.ends.length + if s.holder.isSome then 1 else 0

/-- The compare-and-swap of an owner. -/
def acquire (i : ι) (tid : Tid) : SharedToken ι :=
  { s with ftx := ftxAcquire s.ftx tid, holder := some i, counted := false }

/-- `_tkn++`, where it was `v`. -/
def count (v : ℕ) : SharedToken ι :=
  { s with tkn := (v + 1) % 2 ^ 64, counted := true, tokens := (v + 1) % 2 ^ 64 :: s.tokens }

/-- `a0_atomic_and_fetch(ftx, FUTEX_WAITERS)`. -/
def release : SharedToken ι :=
  { s with ftx := s.ftx &&& futexWaiters, holder := none, ends := false :: s.ends }

/-- What the kernel does to the word of a thread that dies. -/
def die : SharedToken ι := { s with ftx := ftxDie s.ftx, holder := none, ends := true :: s.ends }

/-- The word with `FUTEX_WAITERS`. -/
def setWaiters : SharedToken ι := { s with ftx := s.ftx ||| futexWaiters }

def sleep (i : ι) : SharedToken ι := { s with asleep := Function.update s.asleep i true }

def wake (i : ι) : SharedToken ι := { s with asleep := Function.update s.asleep i false }

def wakeOne : Option ι → SharedToken ι
  | none => s
  | some i => s.wake i

/-- `a0_ftx_broadcast`. -/
def broadcast : SharedToken ι := { s with asleep := fun _ => false }

end SharedToken

/-- What a call has returned. -/
inductive Result where
  /-- The lock is taken: `A0_OK`, or `EOWNERDEAD`. -/
  | acquired (ownerDead : Bool)
  /-- `A0_OK` from a lock, as it is the owner. -/
  | already
  /-- `A0_OK` from `a0_deadman_mtx_unlock`. -/
  | released
  /-- `A0_OK` from `a0_deadman_mtx_wait_locked`. -/
  | locked (tkn : ℕ)
  /-- `A0_OK` from `a0_deadman_mtx_wait_unlocked`. -/
  | unlocked (tkn : ℕ)
  | failed (code : Errno)
  deriving DecidableEq

/-- Who calls `a0_deadman_mtx_trylock_impl`. -/
inductive Caller where
  | trylock
  /-- `a0_deadman_mtx_timedlock_impl`, with the word it has loaded. -/
  | timedlock (old : Ftx)
  deriving DecidableEq

/-- What a thread waits for. -/
inductive Wait (Ω : Type) where
  | lock (d : Ω)
  | locked
  | unlocked (tkn : ℕ)
  deriving DecidableEq

/-- Where a thread is. -/
inductive Pc (Ω : Type) where
  /-- In no call of the deadman. -/
  | idle (last : Option Result)
  /-- `a0_deadman_mtx_timedlock_impl`, before its load. -/
  | lockLoad (d : Ω)
  /-- `a0_deadman_mtx_trylock_impl`, before it loads `_shutdown`. -/
  | tryShutdown (d : Ω) (caller : Caller)
  | tryLoad (d : Ω) (caller : Caller)
  | tryCas (d : Ω) (caller : Caller) (old : Ftx)
  /-- `_tkn++`, before its load. -/
  | tokenLoad (ownerDead : Bool)
  | tokenStore (ownerDead : Bool) (v : ℕ)
  | acquireBroadcast (ownerDead : Bool)
  /-- `a0_deadman_mtx_unlock`, before it clears the word. -/
  | unlockStore (d : Ω)
  | unlockBroadcast
  /-- `a0_deadman_mtx_timedwait_locked_impl`, before it loads the word. -/
  | lockedLoad
  /-- It has seen the owner of a tenure. -/
  | lockedToken (seen : ℕ)
  /-- `a0_deadman_mtx_timedwait_unlocked_impl`, before it loads the word. -/
  | unlockedLoad (tkn : ℕ)
  | unlockedToken (tkn : ℕ) (old : Ftx)
  /-- The loop of either, before it loads `_shutdown`. -/
  | waitShutdown (w : Wait Ω) (old : Ftx)
  /-- Before the compare-and-swap that sets `FUTEX_WAITERS`. -/
  | setWaiters (w : Wait Ω) (old : Ftx)
  /-- Before `a0_ftx_wait`. -/
  | wait (w : Wait Ω) (new : Ftx)
  /-- In `a0_ftx_wait`. -/
  | sleep (w : Wait Ω)
  | dead
  deriving DecidableEq

/-- Where a loop begins again. -/
def Wait.restart {Ω : Type} : Wait Ω → Pc Ω
  | .lock d => .lockLoad d
  | .locked => .lockedLoad
  | .unlocked tkn => .unlockedLoad tkn

/-- What follows if the lock is held by another. -/
def Caller.busy {Ω : Type} (d : Ω) : Caller → Pc Ω
  | .trylock => .idle (some (.failed .ebusy))
  | .timedlock old => .setWaiters (.lock d) old

/-- What a call of `a0_deadman_mtx_wait_locked` has returned. -/
structure Watch where
  tkn : ℕ
  /-- The first tenure that had not ended as the call began. -/
  first : ℕ
  /-- The tenure whose owner it has seen. -/
  seen : ℕ
  /-- The last tenure that had begun as the call ended. -/
  last : ℕ

/-- What a thread has for itself. -/
structure Thread (Ω : Type) where
  pc : Pc Ω
  /-- `_is_owner` of its objects. -/
  isOwner : Ω → Bool
  /-- Its last lock has returned, and no unlock of it has begun. -/
  inside : Bool
  /-- The first tenure that had not ended as its call began. -/
  first : ℕ
  watches : List Watch

/-- A new thread. -/
def Thread.fresh (Ω : Type) : Thread Ω := ⟨.idle none, fun _ => false, false, 0, []⟩

/-- A thread that has died. Its objects are not used again. -/
def Thread.dead (Ω : Type) : Thread Ω := ⟨.dead, fun _ => false, false, 0, []⟩

variable {ι Ω : Type} [DecidableEq ι] [DecidableEq Ω]

/-- Steps that store nothing that others see. -/
inductive Load (tid : Tid) (asleep : Bool) (s : SharedToken ι) (t : Thread Ω) : Thread Ω → Prop where
  /-- `a0_deadman_mtx_trylock` or `a0_deadman_mtx_timedlock` by the owner. -/
  | callLockAgain (r : Option Result) (d : Ω) (hpc : t.pc = .idle r) (hd : t.isOwner d = true) :
      Load tid asleep s t { t with pc := .idle (some .already) }
  | callTrylock (r : Option Result) (d : Ω) (hpc : t.pc = .idle r) (hd : t.isOwner d = false) :
      Load tid asleep s t { t with pc := .tryShutdown d .trylock, first := s.ends.length + 1 }
  | callTimedlock (r : Option Result) (d : Ω) (hpc : t.pc = .idle r) (hd : t.isOwner d = false) :
      Load tid asleep s t { t with pc := .lockLoad d, first := s.ends.length + 1 }
  | callUnlock (r : Option Result) (d : Ω) (hpc : t.pc = .idle r) (hd : t.isOwner d = true) :
      Load tid asleep s t { t with pc := .unlockStore d, inside := false }
  /-- Only the owner can unlock. -/
  | callUnlockOther (r : Option Result) (d : Ω) (hpc : t.pc = .idle r) (hd : t.isOwner d = false) :
      Load tid asleep s t { t with pc := .idle (some (.failed .eperm)) }
  | callWaitLocked (r : Option Result) (hpc : t.pc = .idle r) :
      Load tid asleep s t { t with pc := .lockedLoad, first := s.ends.length + 1 }
  | callWaitUnlocked (r : Option Result) (tkn : ℕ) (hpc : t.pc = .idle r) :
      Load tid asleep s t { t with pc := .unlockedLoad tkn, first := s.ends.length + 1 }
  | lockLoad (d : Ω) (hpc : t.pc = .lockLoad d) :
      Load tid asleep s t { t with pc := .tryShutdown d (.timedlock s.ftx) }
  | tryShutdown (d : Ω) (caller : Caller) (hpc : t.pc = .tryShutdown d caller) :
      Load tid asleep s t { t with pc := .tryLoad d caller }
  | tryIsShutdown (d : Ω) (caller : Caller) (hpc : t.pc = .tryShutdown d caller) :
      Load tid asleep s t { t with pc := .idle (some (.failed .eshutdown)) }
  | tryFree (d : Ω) (caller : Caller) (hpc : t.pc = .tryLoad d caller) (htid : ftxTid s.ftx = 0) :
      Load tid asleep s t { t with pc := .tryCas d caller s.ftx }
  | tryOwn (d : Ω) (caller : Caller) (hpc : t.pc = .tryLoad d caller) (htid : ftxTid s.ftx = tid.val) :
      Load tid asleep s t { t with pc := .idle (some (.failed .edeadlk)) }
  | tryBusy (d : Ω) (caller : Caller) (hpc : t.pc = .tryLoad d caller) (htid : ftxTid s.ftx ≠ 0)
      (hown : ftxTid s.ftx ≠ tid.val) : Load tid asleep s t { t with pc := caller.busy d }
  | tryCasFails (d : Ω) (caller : Caller) (old : Ftx) (hpc : t.pc = .tryCas d caller old) (hftx : s.ftx ≠ old) :
      Load tid asleep s t { t with pc := caller.busy d }
  | tokenLoad (ownerDead : Bool) (hpc : t.pc = .tokenLoad ownerDead) :
      Load tid asleep s t { t with pc := .tokenStore ownerDead s.tkn }
  | lockedNot (hpc : t.pc = .lockedLoad) (hftx : ftxTid s.ftx = 0 ∨ ftxOwnerDied s.ftx = true) :
      Load tid asleep s t { t with pc := .waitShutdown .locked s.ftx }
  | lockedSeen (hpc : t.pc = .lockedLoad) (htid : ftxTid s.ftx ≠ 0) (hdied : ftxOwnerDied s.ftx = false) :
      Load tid asleep s t { t with pc := .lockedToken (s.ends.length + 1) }
  | lockedToken (seen : ℕ) (hpc : t.pc = .lockedToken seen) :
      Load tid asleep s t { t with
        pc := .idle (some (.locked s.tkn)), watches := ⟨s.tkn, t.first, seen, s.begun⟩ :: t.watches }
  | unlockedNow (tkn : ℕ) (hpc : t.pc = .unlockedLoad tkn)
      (hftx : ftxTid s.ftx = 0 ∨ ftxOwnerDied s.ftx = true) :
      Load tid asleep s t { t with pc := .idle (some (.unlocked tkn)) }
  | unlockedNot (tkn : ℕ) (hpc : t.pc = .unlockedLoad tkn) (htid : ftxTid s.ftx ≠ 0)
      (hdied : ftxOwnerDied s.ftx = false) : Load tid asleep s t { t with pc := .unlockedToken tkn s.ftx }
  | unlockedOther (tkn : ℕ) (old : Ftx) (hpc : t.pc = .unlockedToken tkn old) (htkn : s.tkn ≠ tkn) :
      Load tid asleep s t { t with pc := .idle (some (.unlocked tkn)) }
  | unlockedSame (tkn : ℕ) (old : Ftx) (hpc : t.pc = .unlockedToken tkn old) (htkn : s.tkn = tkn) :
      Load tid asleep s t { t with pc := .waitShutdown (.unlocked tkn) old }
  | waitShutdown (w : Wait Ω) (old : Ftx) (hpc : t.pc = .waitShutdown w old) :
      Load tid asleep s t { t with pc := .setWaiters w old }
  | waitIsShutdown (w : Wait Ω) (old : Ftx) (hpc : t.pc = .waitShutdown w old) :
      Load tid asleep s t { t with pc := .idle (some (.failed .eshutdown)) }
  | setWaitersFails (w : Wait Ω) (old : Ftx) (hpc : t.pc = .setWaiters w old) (hftx : s.ftx ≠ old) :
      Load tid asleep s t { t with pc := w.restart }
  /-- `EAGAIN` -/
  | waitChanged (w : Wait Ω) (new : Ftx) (hpc : t.pc = .wait w new) (hftx : s.ftx ≠ new) :
      Load tid asleep s t { t with pc := w.restart }
  | waitFails (w : Wait Ω) (new : Ftx) (e : Errno) (hpc : t.pc = .wait w new) (he : e ≠ .eagain) :
      Load tid asleep s t { t with pc := .idle (some (.failed e)) }
  | wakes (w : Wait Ω) (hpc : t.pc = .sleep w) (ha : asleep = false) :
      Load tid asleep s t { t with pc := w.restart }
  /-- A new thread, with the id of a dead one. -/
  | born (hpc : t.pc = .dead) : Load tid asleep s t (.fresh Ω)

/-- The atomic steps of a thread. -/
inductive Act (tid : ι → Tid) (i : ι) (σ : Threads ι (SharedToken ι) (Thread Ω)) :
    SharedToken ι → Thread Ω → Prop where
  | load (t : Thread Ω) (h : Load (tid i) (σ.shared.asleep i) σ.shared (σ.loc i) t) : Act tid i σ σ.shared t
  /-- The compare-and-swap of `a0_deadman_mtx_trylock_impl`. -/
  | acquires (d : Ω) (caller : Caller) (old : Ftx) (hpc : (σ.loc i).pc = .tryCas d caller old)
      (hftx : σ.shared.ftx = old) :
      Act tid i σ (σ.shared.acquire i (tid i)) { σ.loc i with
        pc := .tokenLoad (ftxOwnerDied old), isOwner := Function.update (σ.loc i).isOwner d true }
  | counts (ownerDead : Bool) (v : ℕ) (hpc : (σ.loc i).pc = .tokenStore ownerDead v) :
      Act tid i σ (σ.shared.count v) { σ.loc i with pc := .acquireBroadcast ownerDead }
  | acquireBroadcasts (ownerDead : Bool) (hpc : (σ.loc i).pc = .acquireBroadcast ownerDead) :
      Act tid i σ σ.shared.broadcast
        { σ.loc i with pc := .idle (some (.acquired ownerDead)), inside := true }
  | releases (d : Ω) (hpc : (σ.loc i).pc = .unlockStore d) :
      Act tid i σ σ.shared.release { σ.loc i with
        pc := .unlockBroadcast, isOwner := Function.update (σ.loc i).isOwner d false }
  | unlockBroadcasts (hpc : (σ.loc i).pc = .unlockBroadcast) :
      Act tid i σ σ.shared.broadcast { σ.loc i with pc := .idle (some .released) }
  | setsWaiters (w : Wait Ω) (old : Ftx) (hpc : (σ.loc i).pc = .setWaiters w old) (hftx : σ.shared.ftx = old) :
      Act tid i σ σ.shared.setWaiters { σ.loc i with pc := .wait w (old ||| futexWaiters) }
  /-- `FUTEX_WAIT` -/
  | sleeps (w : Wait Ω) (new : Ftx) (hpc : (σ.loc i).pc = .wait w new) (hftx : σ.shared.ftx = new) :
      Act tid i σ (σ.shared.sleep i) { σ.loc i with pc := .sleep w }
  /-- A wait ends by time, or by a signal. -/
  | givesUp (w : Wait Ω) (e : Errno) (hpc : (σ.loc i).pc = .sleep w) (he : e ≠ .eagain) :
      Act tid i σ (σ.shared.wake i) { σ.loc i with pc := .idle (some (.failed e)) }
  /-- A wait ends for no reason. -/
  | stirs (w : Wait Ω) (hpc : (σ.loc i).pc = .sleep w) : Act tid i σ (σ.shared.wake i) (σ.loc i)
  /-- `a0_deadman_mtx_shutdown` of another's object. -/
  | shutsDown (r : Option Result) (hpc : (σ.loc i).pc = .idle r) : Act tid i σ σ.shared.broadcast (σ.loc i)
  /-- A thread dies that has the lock. -/
  | ownerDies (woken : Option ι) (hpc : (σ.loc i).pc ≠ .dead) (htid : ftxTid σ.shared.ftx = (tid i).val)
      (hwoken : ∀ j, woken = some j → σ.shared.asleep j = true) :
      Act tid i σ ((σ.shared.die.wakeOne woken).wake i) (.dead Ω)
  | otherDies (hpc : (σ.loc i).pc ≠ .dead) (htid : ftxTid σ.shared.ftx ≠ (tid i).val) :
      Act tid i σ (σ.shared.wake i) (.dead Ω)

/-- The runs: at first the token is zero, and no thread has done anything. -/
def runs (tid : ι → Tid) : TransitionSystem (Threads ι (SharedToken ι) (Thread Ω)) :=
  Threads.system (fun s loc => s = .fresh ∧ ∀ i, loc i = .fresh Ω) (Act tid)

/-- The runs all of whose steps meet a condition. -/
def runsIf (tid : ι → Tid) (C : ι → Threads ι (SharedToken ι) (Thread Ω) → SharedToken ι → Thread Ω → Prop) :
    TransitionSystem (Threads ι (SharedToken ι) (Thread Ω)) :=
  Threads.system (fun s loc => s = .fresh ∧ ∀ i, loc i = .fresh Ω)
    fun i σ s t => Act tid i σ s t ∧ C i σ s t

/-- Two threads, with the ids 1 and 2. -/
def tidTwo : Bool → Tid
  | false => ⟨1, by decide, by decide⟩
  | true => ⟨2, by decide, by decide⟩

end Deadman

end AlephZero
