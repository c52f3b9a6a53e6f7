import AlephZero.Err
import AlephZero.Ftx
import AlephZero.Machine.Atomic
import AlephZero.Machine.LinkedList
import Mathlib.Data.Nat.Notation
import Mathlib.Algebra.Group.Nat.Defs

/-!
# Robust mutexes

`robust.c`, `mtx.c` and the locks of `deadman_mtx.c`, by one thread: the list of the mutexes
it has, which the kernel walks when the thread dies, is edited by single stores.

## The model

An action is one load, store or compare-and-swap of memory, or one call of the kernel. The
links of a mutex are in the mutex; the links of the list's head, `list_op_pending` and the
flag of `a0_robust_init_thread` are of the thread. A deadman object is of the thread too,
but its `_shutdown` others set.

The kernel gives a free mutex to who asks for it, and frees the mutex that its owner
unlocks; who waits for it has it then as the next action. It fails with any code but
`EOWNERDEAD`.
-/

namespace AlephZero

open Code

namespace Robust

/-- What a thread has for itself, with its deadman objects `δ`. -/
structure Local (ι δ : Type) where
  /-- `a0_robust_init_flag` -/
  initFlag : Bool
  /-- `futex_offset` and `list_op_pending` of `a0_robust_head`. -/
  futexOffset : ℕ
  pending : Link ι
  /-- The kernel knows the head. -/
  registered : Bool
  /-- `_is_owner` and `_inop` of the objects. -/
  isOwner : δ → Bool
  inop : δ → Bool

/-- The mutexes `ι`, and a thread. -/
structure State (ι δ : Type) where
  /-- `next` of the mutexes, and of the head. -/
  next : Link ι → Link ι
  prev : Link ι → Link ι
  ftx : ι → Ftx
  /-- `_tkn` of the shared token that has this mutex. -/
  tkn : ι → ℕ
  shutdown : δ → Bool
  loc : Local ι δ

variable {ι δ : Type} [DecidableEq ι]

namespace State

variable (s : State ι δ)

def setNext (a v : Link ι) : State ι δ := { s with next := Function.update s.next a v }

def setPrev (a v : Link ι) : State ι δ := { s with prev := Function.update s.prev a v }

def setFtx (m : ι) (v : Ftx) : State ι δ := { s with ftx := Function.update s.ftx m v }

def setTkn (m : ι) (v : ℕ) : State ι δ := { s with tkn := Function.update s.tkn m v }

def setPending (v : Link ι) : State ι δ := { s with loc := { s.loc with pending := v } }

def setOwner [DecidableEq δ] (d : δ) (v : Bool) : State ι δ :=
  { s with loc := { s.loc with isOwner := Function.update s.loc.isOwner d v } }

def setInop [DecidableEq δ] (d : δ) (v : Bool) : State ι δ :=
  { s with loc := { s.loc with inop := Function.update s.loc.inop d v } }

theorem setNext_self (a v : Link ι) : (s.setNext a v).next a = v := Function.update_self ..

theorem setNext_of_ne {a b : Link ι} (h : b ≠ a) (v : Link ι) : (s.setNext a v).next b = s.next b :=
  Function.update_of_ne h ..

theorem setPrev_self (a v : Link ι) : (s.setPrev a v).prev a = v := Function.update_self ..

theorem setFtx_self (m : ι) (v : Ftx) : (s.setFtx m v).ftx m = v := Function.update_self ..

theorem setFtx_of_ne {m i : ι} (h : i ≠ m) (v : Ftx) : (s.setFtx m v).ftx i = s.ftx i := Function.update_of_ne h ..

end State

/-! ### The list -/

/-- `a0_robust_init_head`, with `set_robust_list` at its end. -/
def robustInitHead : Code (State ι δ) Unit := do
  store fun s => s.setNext .head .head
  store fun s => { s with loc := { s.loc with futexOffset := 16 } }
  store fun s => s.setPending .null
  store fun s => { s with loc := { s.loc with registered := true } }

/-- `a0_robust_init_thread`, less the handler of `fork`. -/
def robustInitThread : Code (State ι δ) Unit := do
  if ← load fun s => s.loc.initFlag then
    return
  robustInitHead
  store fun s => { s with loc := { s.loc with initFlag := true } }

/-- `a0_robust_op_start` -/
def robustOpStart (mtx : ι) : Code (State ι δ) Unit := do
  robustInitThread
  store fun s => s.setPending (.node mtx)

/-- `a0_robust_op_end` -/
def robustOpEnd : Code (State ι δ) Unit := store fun s => s.setPending .null

/-- `a0_robust_op_add` -/
def robustOpAdd (mtx : ι) : Code (State ι δ) Unit := do
  let oldFirst ← load fun s => s.next .head
  store fun s => s.setPrev (.node mtx) .head
  store fun s => s.setNext (.node mtx) oldFirst
  store fun s => s.setNext .head (.node mtx)
  if oldFirst ≠ .head then
    store fun s => s.setPrev oldFirst (.node mtx)

/-- `a0_robust_op_del` -/
def robustOpDel (mtx : ι) : Code (State ι δ) Unit := do
  let prev ← load fun s => s.prev (.node mtx)
  let next ← load fun s => s.next (.node mtx)
  store fun s => s.setNext prev next
  if next ≠ .head then
    store fun s => s.setPrev next prev

/-! ### Futexes -/

/-- `a0_cas` -/
def cas (mtx : ι) (old new : Ftx) : Code (State ι δ) Bool :=
  modify fun s => if s.ftx mtx = old then (true, s.setFtx mtx new) else (false, s)

/-- `a0_cas_val` -/
def casVal (mtx : ι) (old new : Ftx) : Code (State ι δ) Ftx :=
  modify fun s => (s.ftx mtx, if s.ftx mtx = old then s.setFtx mtx new else s)

/-- `a0_atomic_and_fetch` -/
def andFetch (mtx : ι) (mask : Ftx) : Code (State ι δ) Unit :=
  store fun s => s.setFtx mtx (s.ftx mtx &&& mask)

/-- `FUTEX_LOCK_PI` and `FUTEX_TRYLOCK_PI`; `none` is `A0_OK`. -/
def lockPi (tid : Tid) (mtx : ι) : Code (State ι δ) (Option Errno) := act fun s err t =>
  (∃ e, e ≠ .eownerdead ∧ err = some e ∧ t = s) ∨
    err = none ∧ ftxTid (s.ftx mtx) = 0 ∧ ∃ w, ftxTid w = tid.val ∧ t = s.setFtx mtx w

/-- `FUTEX_UNLOCK_PI` -/
def unlockPi (tid : Tid) (mtx : ι) : Code (State ι δ) Unit := act fun s _ t =>
  ftxTid (s.ftx mtx) = tid.val ∧ (∃ w, ftxTid w = 0 ∧ t = s.setFtx mtx w) ∨
    ftxTid (s.ftx mtx) ≠ tid.val ∧ t = s

/-- `FUTEX_WAIT` -/
def ftxWait : Code (State ι δ) (Option Errno) := act fun s err t => err ≠ some .eownerdead ∧ t = s

/-- `a0_ftx_broadcast` -/
def ftxBroadcast : Code (State ι δ) Unit := act fun s _ t => t = s

/-! ### Mutexes -/

/-- `a0_mtx_lock_successful` -/
def mtxLockSuccessful : Option Errno → Bool
  | none | some .eownerdead => true
  | _ => false

/-- What a lock returns that the kernel has given. -/
def lockedResult (mtx : ι) : Code (State ι δ) (Option Errno) := do
  if ftxOwnerDied (← load fun s => s.ftx mtx) then
    return some .eownerdead
  return none

/-- `a0_mtx_timedlock_robust` -/
def mtxTimedlockRobust (tid : Tid) (mtx : ι) : Code (State ι δ) (Option Errno) := do
  if ← cas mtx 0 tid.val then
    return none
  match ← lockPi tid mtx with
  | none => lockedResult mtx
  | some e => return some e

/-- `a0_mtx_timedlock`, and `a0_mtx_lock`. -/
def mtxTimedlock (tid : Tid) (mtx : ι) : Code (State ι δ) (Option Errno) := do
  robustOpStart mtx
  let err ← mtxTimedlockRobust tid mtx
  if mtxLockSuccessful err then
    robustOpAdd mtx
  robustOpEnd
  return err

/-- `a0_mtx_trylock_impl` -/
def mtxTrylockImpl (tid : Tid) (mtx : ι) : Code (State ι δ) (Option Errno) := do
  let old ← casVal mtx 0 tid.val
  if old = 0 then
    return none
  if !ftxOwnerDied old then
    return some .ebusy
  match ← lockPi tid mtx with
  | none => lockedResult mtx
  | some .eagain => return some .ebusy
  | some e => return some e

/-- `a0_mtx_trylock` -/
def mtxTrylock (tid : Tid) (mtx : ι) : Code (State ι δ) (Option Errno) := do
  robustOpStart mtx
  let err ← mtxTrylockImpl tid mtx
  if mtxLockSuccessful err then
    robustOpAdd mtx
  robustOpEnd
  return err

/-- `a0_mtx_unlock` -/
def mtxUnlock (tid : Tid) (mtx : ι) : Code (State ι δ) (Option Errno) := do
  let val ← load fun s => s.ftx mtx
  if ftxTid val ≠ tid.val then
    return some .eperm
  robustOpStart mtx
  robustOpDel mtx
  andFetch mtx (~~~futexOwnerDied)
  if !(← cas mtx tid.val 0) then
    unlockPi tid mtx
  robustOpEnd
  return none

/-! ### Deadman mutexes

`d` is the object, and `mtx` the mutex of its token. -/

variable [DecidableEq δ]

/-- `a0_deadman_mtx_trylock_impl` -/
def deadmanTrylockImpl (tid : Tid) (d : δ) (mtx : ι) : Code (State ι δ) (Option Errno) := do
  if ← load fun s => s.shutdown d then
    return some .eshutdown
  let old ← load fun s => s.ftx mtx
  if ftxTid old = 0 then
    if ← cas mtx old (ftxAcquire old tid) then
      store fun s => s.setOwner d true
      let tkn ← load fun s => s.tkn mtx
      store fun s => s.setTkn mtx ((tkn + 1) % 2 ^ 64)
      ftxBroadcast
      return if ftxOwnerDied old then some .eownerdead else none
    return some .ebusy
  return if ftxTid old = tid.val then some .edeadlk else some .ebusy

/-- `a0_deadman_mtx_trylock` -/
def deadmanTrylock (tid : Tid) (d : δ) (mtx : ι) : Code (State ι δ) (Option Errno) := do
  if ← load fun s => s.loc.isOwner d then
    return none
  robustOpStart mtx
  let err ← deadmanTrylockImpl tid d mtx
  if mtxLockSuccessful err then
    robustOpAdd mtx
  robustOpEnd
  return err

/-- `a0_deadman_mtx_timedlock_impl` -/
def deadmanTimedlockImpl (tid : Tid) (d : δ) (mtx : ι) : Code (State ι δ) (Option Errno) := .loop do
  let old ← load fun s => s.ftx mtx
  let err ← deadmanTrylockImpl tid d mtx
  if err ≠ some .ebusy then
    return some err
  if ← cas mtx old (old ||| futexWaiters) then
    let err ← ftxWait
    -- the condition of the loop
    return if err = none ∨ err = some .eagain then none else some err
  return none

/-- `a0_deadman_mtx_timedlock`, and `a0_deadman_mtx_lock`. -/
def deadmanTimedlock (tid : Tid) (d : δ) (mtx : ι) : Code (State ι δ) (Option Errno) := do
  if ← load fun s => s.loc.isOwner d then
    return none
  store fun s => s.setInop d true
  robustOpStart mtx
  let err ← deadmanTimedlockImpl tid d mtx
  if mtxLockSuccessful err then
    robustOpAdd mtx
  robustOpEnd
  store fun s => s.setInop d false
  return err

/-- `a0_deadman_mtx_unlock` -/
def deadmanUnlock (d : δ) (mtx : ι) : Code (State ι δ) (Option Errno) := do
  if !(← load fun s => s.loc.isOwner d) then
    return some .eperm
  robustOpStart mtx
  robustOpDel mtx
  andFetch mtx futexWaiters
  robustOpEnd
  store fun s => s.setOwner d false
  ftxBroadcast
  return none

/-! ### Calls -/

/-- The calls of a thread, on mutexes `κ` and deadman objects `δ`. -/
inductive Call (κ δ : Type) where
  | timedlock (mtx : κ)
  | trylock (mtx : κ)
  | unlock (mtx : κ)
  | deadmanTimedlock (d : δ)
  | deadmanTrylock (d : δ)
  | deadmanUnlock (d : δ)

variable {κ τ : Type} [DecidableEq κ] [DecidableEq τ]

/-- The code of a call; the object `d` has the token `stkn d`. -/
def Call.code (tid : Tid) (stkn : δ → τ) : Call κ δ → Code (State (κ ⊕ τ) δ) (Option Errno)
  | timedlock mtx => Robust.mtxTimedlock tid (.inl mtx)
  | trylock mtx => Robust.mtxTrylock tid (.inl mtx)
  | unlock mtx => Robust.mtxUnlock tid (.inl mtx)
  | deadmanTimedlock d => Robust.deadmanTimedlock tid d (.inr (stkn d))
  | deadmanTrylock d => Robust.deadmanTrylock tid d (.inr (stkn d))
  | deadmanUnlock d => Robust.deadmanUnlock d (.inr (stkn d))

/-- One call after the other. -/
def session (tid : Tid) (stkn : δ → τ) : List (Call κ δ) → Code (State (κ ⊕ τ) δ) Unit
  | [] => return
  | c :: cs => do
    let _ ← c.code tid stkn
    session tid stkn cs

end Robust

end AlephZero
