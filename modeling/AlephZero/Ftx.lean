import Mathlib.Init

/-!
# Futex words

`ftx.h`: a word of 32 bits, with the id of the thread that has locked it, whether there
are waiters, and whether the last thread that had it died. The kernel has the same view.
-/

namespace AlephZero

/-- `a0_ftx_t`. -/
abbrev Ftx := BitVec 32

/-- `FUTEX_WAITERS`. -/
def futexWaiters : Ftx := 0x80000000#32

/-- `FUTEX_OWNER_DIED`. -/
def futexOwnerDied : Ftx := 0x40000000#32

/-- `FUTEX_TID_MASK`. -/
def futexTidMask : Ftx := 0x3fffffff#32

/-- `a0_ftx_tid`. -/
def ftxTid (ftx : Ftx) : Ftx := ftx &&& futexTidMask

/-- `a0_ftx_owner_died`. -/
def ftxOwnerDied (ftx : Ftx) : Bool := ftx &&& futexOwnerDied ≠ 0

/-- The id of a thread. -/
structure Tid where
  val : Ftx
  masked : ftxTid val = val
  ne_zero : val ≠ 0

theorem ftxTid_one : ftxTid 1 = 1 := by decide

theorem ftx_one_ne_zero : (1 : Ftx) ≠ 0 := by decide

/-- The word when a thread locks it. -/
def ftxAcquire (old : Ftx) (tid : Tid) : Ftx := (old ||| tid.val) &&& ~~~futexOwnerDied

/-- The word when its thread has died. -/
def ftxDie (ftx : Ftx) : Ftx := ftx &&& futexWaiters ||| futexOwnerDied

variable {ftx : Ftx} {tid : Tid}

theorem waiters_and_tidMask : futexWaiters &&& futexTidMask = 0#32 := by decide
theorem ownerDied_and_tidMask : futexOwnerDied &&& futexTidMask = 0#32 := by decide
theorem waiters_and_ownerDied : futexWaiters &&& futexOwnerDied = 0#32 := by decide

@[simp] theorem ftxTid_zero : ftxTid 0 = 0 := by decide
@[simp] theorem ftxOwnerDied_zero : ftxOwnerDied 0 = false := by decide

theorem ftxTid_acquire (h : ftxTid ftx = 0) : ftxTid (ftxAcquire ftx tid) = tid.val := by
  have hmask : ~~~futexOwnerDied &&& futexTidMask = futexTidMask := by decide
  have htid := tid.masked
  unfold ftxTid at h htid
  rw [ftxTid, ftxAcquire, BitVec.and_assoc, hmask, BitVec.and_or_distrib_right, h, htid]
  exact BitVec.zero_or

@[simp] theorem ftxOwnerDied_acquire : ftxOwnerDied (ftxAcquire ftx tid) = false := by
  have hmask : ~~~futexOwnerDied &&& futexOwnerDied = 0#32 := by decide
  rw [ftxOwnerDied, ftxAcquire, BitVec.and_assoc, hmask, BitVec.and_zero]
  decide

@[simp] theorem ftxTid_or_waiters : ftxTid (ftx ||| futexWaiters) = ftxTid ftx := by
  rw [ftxTid, BitVec.and_or_distrib_right, waiters_and_tidMask, BitVec.or_zero, ftxTid]

@[simp] theorem ftxOwnerDied_or_waiters : ftxOwnerDied (ftx ||| futexWaiters) = ftxOwnerDied ftx := by
  rw [ftxOwnerDied, BitVec.and_or_distrib_right, waiters_and_ownerDied, BitVec.or_zero, ftxOwnerDied]

@[simp] theorem ftxTid_and_waiters : ftxTid (ftx &&& futexWaiters) = 0 := by
  rw [ftxTid, BitVec.and_assoc, waiters_and_tidMask, BitVec.and_zero]
  rfl

@[simp] theorem ftxOwnerDied_and_waiters : ftxOwnerDied (ftx &&& futexWaiters) = false := by
  rw [ftxOwnerDied, BitVec.and_assoc, waiters_and_ownerDied, BitVec.and_zero]
  decide

@[simp] theorem ftxTid_and_not_ownerDied : ftxTid (ftx &&& ~~~futexOwnerDied) = ftxTid ftx := by
  have hmask : ~~~futexOwnerDied &&& futexTidMask = futexTidMask := by decide
  rw [ftxTid, BitVec.and_assoc, hmask, ftxTid]

@[simp] theorem ftxTid_die : ftxTid (ftxDie ftx) = 0 := by
  rw [ftxTid, ftxDie, BitVec.and_or_distrib_right, BitVec.and_assoc, waiters_and_tidMask,
    ownerDied_and_tidMask, BitVec.and_zero, BitVec.or_zero]
  rfl

@[simp] theorem ftxOwnerDied_die : ftxOwnerDied (ftxDie ftx) = true := by
  rw [ftxOwnerDied, ftxDie, BitVec.and_or_distrib_right, BitVec.and_assoc, waiters_and_ownerDied,
    BitVec.and_zero, BitVec.zero_or]
  decide

end AlephZero
