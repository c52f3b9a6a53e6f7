import AlephZero.Robust.Coverage
import AlephZero.Time.Clock
import Mathlib.Data.List.Nodup

/-!
# Condition variables

`a0_cnd_timedwait` of `mtx.c`, by a thread that also makes the calls of `Robust.Basic`. It
unlocks the mutex, waits in the kernel, which gives the mutex back if the wait is successful,
and locks the mutex itself after some errors.

## The model

The clocks and the kernel answer anything; what they answer in a wait is an argument. The
kernel gives the mutex if it answers `A0_OK`, as the mutex is free, and does nothing if it
answers an error; it rejects a deadline of negative seconds. The word of the condition variable
is only passed to the kernel, and left out. `a0_err_syscode` is that of the last error, so a
lock after `ETIMEDOUT` that gives an error changes what the wait returns.

## What is proved

* `triple_cndTimedwait` — what a wait does that locks again: nothing, all in all.
* `exists_lost` — every other wait has a run after which the thread does not have the mutex.
* **`cnd_wait_iff`** — after a wait that has released the mutex, the thread has it and it is on
  the list once, in all runs if and only if the wait has been successful, or was answered
  `ETIMEDOUT` or `EAGAIN` and the lock after that is not refused.
* `not_cnd_wait` — a deadline that has passed while the system was suspended.
-/

namespace AlephZero

open Code LinkedList

namespace Robust

variable {ι δ : Type} [DecidableEq ι]

/-! ### The wait -/

/-- What the clocks and the kernel answer in a wait; `none` is `A0_OK`. -/
structure Answers where
  /-- `CLOCK_BOOTTIME` -/
  origNow : Except Err Timespec
  /-- `CLOCK_MONOTONIC` -/
  targetNow : Except Err Timespec
  /-- `FUTEX_WAIT_REQUEUE_PI` -/
  waits : Option Errno
  /-- `FUTEX_LOCK_PI` after `ETIMEDOUT`. -/
  locksTimedout : Option Errno
  /-- `FUTEX_LOCK_PI` after `EAGAIN`. -/
  locksAgain : Option Errno

/-- What `a0_ftx_wait_requeue_pi` returns. -/
def Answers.requeue (a : Answers) : Option Timespec → Option Err
  | none => a.waits.map .sys
  | some timeout => match clockConvert a.origNow timeout a.targetNow with
    | .error e => some e
    | .ok tsMono => if tsMono.sec < 0 then some (.sys .einval) else a.waits.map .sys

/-- The kernel gives the mutex, or answers an error. -/
def answered {α : Type} (tid : Tid) (mtx : ι) (answer : Option α) : Code (State ι δ) (Option α) := act fun s err t =>
  err = answer ∧ ((∃ e, answer = some e) ∧ t = s ∨
    answer = none ∧ ftxTid (s.ftx mtx) = 0 ∧ ∃ w, ftxTid w = tid.val ∧ t = s.setFtx mtx w)

/-- `a0_mtx_timedlock_robust`, with a call of the kernel. -/
def mtxTimedlockRobustBy (lockPi : Code (State ι δ) (Option Errno)) (tid : Tid) (mtx : ι) :
    Code (State ι δ) (Option Errno) := do
  if ← cas mtx 0 tid.val then
    return none
  match ← lockPi with
  | none => lockedResult mtx
  | some e => return some e

/-- The lock after `ETIMEDOUT`. -/
def lockTimedout (tid : Tid) (mtx : ι) (a : Answers) (err : Option Err) : Code (State ι δ) (Option Err) := do
  if err = some (.sys .etimedout) then
    let syscode ← mtxTimedlockRobustBy (answered tid mtx a.locksTimedout) tid mtx
    -- the timeout error is kept, but not its `a0_err_syscode`
    return syscode.map .sys <|> err
  return err

/-- The lock after `EAGAIN`. -/
def lockAgain (tid : Tid) (mtx : ι) (a : Answers) (err : Option Err) : Code (State ι δ) (Option Err) := do
  if err = some (.sys .eagain) then
    return (← mtxTimedlockRobustBy (answered tid mtx a.locksAgain) tid mtx).map .sys
  return err

/-- Without an error, whether the owner before has died. -/
def cndResult (mtx : ι) (err : Option Err) : Code (State ι δ) (Option Err) := do
  if err = none then
    return (← lockedResult mtx).map .sys
  return err

/-- From `a0_robust_op_add` on. -/
def cndFinish (mtx : ι) (err : Option Err) : Code (State ι δ) (Option Err) := do
  robustOpAdd mtx
  let err ← cndResult mtx err
  robustOpEnd
  return err

/-- The check of the timeout. -/
def badTimeout : Option Timespec → Bool
  | none => false
  | some ts => ts.sec < 0 || ts.nsec < 0 || (ts.sec = 0 && ts.nsec = 0) || nsPerSec ≤ ts.nsec

/-- `a0_cnd_timedwait`, and `a0_cnd_wait`. -/
def cndTimedwait (tid : Tid) (mtx : ι) (timeout : Option Timespec) (a : Answers) :
    Code (State ι δ) (Option Err) := do
  if badTimeout timeout then
    return some (.sys .einval)
  let err ← mtxUnlock tid mtx
  if err ≠ none then
    return err.map .sys
  robustOpStart mtx
  let err ← answered tid mtx (a.requeue timeout)
  let err ← lockTimedout tid mtx a err
  let err ← lockAgain tid mtx a err
  cndFinish mtx err

theorem mtxTimedlockRobust_eq (tid : Tid) (mtx : ι) :
    mtxTimedlockRobust tid mtx = mtxTimedlockRobustBy (δ := δ) (lockPi tid mtx) tid mtx := rfl

/-! ### What should hold -/

/-- The thread has the mutex, and following `next` from the head visits it once. -/
def Reacquired (tid : Tid) (mtx : ι) (s : State ι δ) : Prop :=
  Own tid s mtx ∧ ∃ L, Walk s.next .head L ∧ L.count mtx = 1

theorem Rest.reacquired {tid : Tid} {m : ι} {o : δ → Bool} {W : ι → Prop} {s : State ι δ} (h : Rest tid o W s)
    (hm : W m) : Reacquired tid m s := by
  refine ⟨h.own.mpr hm, ?_⟩
  rcases h with ⟨-, -, hno⟩ | hat
  · exact absurd hm (hno m)
  · obtain ⟨L, hl, hL⟩ := hat.list
    exact ⟨L, hl.walk, List.count_eq_one_of_mem hl.nodup ((hL m).mpr ⟨hm, nofun⟩)⟩

/-- The wait is successful, or it is answered one of the errors after which the mutex is locked,
and that lock is not refused. -/
def Answers.Relocks (a : Answers) (timeout : Option Timespec) : Prop :=
  a.requeue timeout = none ∨
    a.requeue timeout = some (.sys .etimedout) ∧
      (a.locksTimedout = none ∨ a.locksTimedout = some .eagain ∧ a.locksAgain = none) ∨
    a.requeue timeout = some (.sys .eagain) ∧ a.locksAgain = none

/-! ### A wait that locks again -/

variable {tid : Tid} {m : ι} {o : δ → Bool} {W : ι → Prop} {a : Answers} {timeout : Option Timespec}

/-- Before the lock after `EAGAIN`: that will succeed, or the thread has the mutex. -/
def Again (tid : Tid) (o : δ → Bool) (W : ι → Prop) (m : ι) (a : Answers) (err : Option Err) (x : State ι δ) : Prop :=
  (err = some (.sys .eagain) ∧ a.locksAgain = none) ∧ At tid true o W (.node m) none x ∨
    err ≠ some (.sys .eagain) ∧ Tried tid o o W m true x

theorem triple_answered {α : Type} {answer : Option α} :
    Triple (terms ι δ tid) (At tid true o W (.node m) none) (answered tid m answer) fun err x =>
      err = answer ∧ Tried tid o o W m answer.isNone x := by
  refine triple_act_of_rely (fun _ _ hx => hx.rely) fun s err t hs hinv hf => ?_
  rcases hf with ⟨rfl, ⟨⟨e, rfl⟩, rfl⟩ | ⟨rfl, hfree, w, hw, rfl⟩⟩
  · exact ⟨.refl _, ⟨rfl, hs⟩, hinv⟩
  · have hat := hs.acquire hfree hw
    exact ⟨leaves_setFtx (.inl hfree), ⟨rfl, hat⟩, hat.2.covered_out⟩

/-- A lock that the kernel does not refuse succeeds; one that it refuses may do so too. -/
theorem triple_mtxTimedlockRobustBy {answer : Option Errno} :
    Triple (terms ι δ tid) (At tid true o W (.node m) none) (mtxTimedlockRobustBy (answered tid m answer) tid m)
      fun err x => err = answer ∧ answer ≠ none ∧ At tid true o W (.node m) none x ∨
        (err = none ∨ err = some .eownerdead) ∧ Tried tid o o W m true x := by
  refine triple_bind (triple_cas_acquire ftxTid_zero tid.masked) fun r => triple_ite (fun hr => ?_) fun hr => ?_
  · subst hr
    exact triple_pure fun x hx => .inr ⟨.inl rfl, hx⟩
  · rw [Bool.not_eq_true] at hr
    subst hr
    refine triple_bind triple_answered fun err => triple_and fun herr => ?_
    subst herr
    cases err with
    | none =>
      refine triple_bind triple_load_any fun v => triple_ite (fun _ => ?_) fun _ => ?_
      · exact triple_pure fun x hx => .inr ⟨.inr rfl, hx⟩
      · exact triple_pure fun x hx => .inr ⟨.inl rfl, hx⟩
    | some e => exact triple_pure fun x hx => .inl ⟨rfl, nofun, hx⟩

theorem triple_lockTimedout (h : a.Relocks timeout) :
    Triple (terms ι δ tid) (Tried tid o o W m (a.requeue timeout).isNone) (lockTimedout tid m a (a.requeue timeout))
      (Again tid o W m a) := by
  rcases h with h | ⟨h, hlock⟩ | ⟨h, hagain⟩
  · rw [h]
    exact triple_pure fun x hx => .inr ⟨nofun, hx⟩
  · rw [h]
    refine triple_bind triple_mtxTimedlockRobustBy fun syscode => triple_pure fun x hx => ?_
    rcases hx with ⟨rfl, hne, hx⟩ | ⟨rfl | rfl, hx⟩
    · obtain ⟨hcode, hagain⟩ := hlock.resolve_left hne
      rw [hcode]
      exact .inl ⟨⟨rfl, hagain⟩, hx⟩
    · exact .inr ⟨nofun, hx⟩
    · exact .inr ⟨nofun, hx⟩
  · rw [h]
    exact triple_pure fun x hx => .inl ⟨⟨rfl, hagain⟩, hx⟩

theorem triple_lockAgain {err : Option Err} : Triple (terms ι δ tid) (Again tid o W m a err) (lockAgain tid m a err)
    fun _ => Tried tid o o W m true := by
  refine triple_or (triple_and fun h => ?_) (triple_and fun h => ?_)
  · obtain ⟨rfl, hagain⟩ := h
    refine triple_bind triple_mtxTimedlockRobustBy fun code => triple_pure fun x hx => ?_
    rcases hx with ⟨-, hne, -⟩ | ⟨-, hx⟩
    · exact absurd hagain hne
    · exact hx
  · refine triple_ite (fun h' => absurd h' h) fun _ => triple_pure fun x hx => hx

omit [DecidableEq ι] in
theorem triple_cndResult {T : Terms (State ι δ)} {A : State ι δ → Prop} {err : Option Err} :
    Triple T A (cndResult m err) fun _ => A := by
  refine triple_ite (fun _ => ?_) fun _ => triple_pure fun x hx => hx
  refine triple_bind (Q := fun _ => A) (triple_bind triple_load_any fun v => triple_ite (fun _ => ?_) fun _ => ?_)
    fun r => ?_
  · exact triple_pure fun x hx => hx
  · exact triple_pure fun x hx => hx
  · exact triple_pure fun x hx => hx

theorem triple_cndFinish {err : Option Err} : Triple (terms ι δ tid) (Tried tid o o W m true) (cndFinish m err)
    fun _ => Rest tid o (gain W m) := by
  refine triple_and fun hW => triple_bind (triple_robustOpAdd (.inr rfl)) fun _ => ?_
  exact triple_bind triple_cndResult fun err' => triple_bind triple_robustOpEnd fun _ => triple_pure fun x hx => hx

/-- Without the mutex, or with a bad timeout, nothing happens. -/
theorem triple_cndTimedwait_refused (h : ¬ (badTimeout timeout = false ∧ W m)) :
    Triple (terms ι δ tid) (Rest tid o W) (cndTimedwait tid m timeout a) fun err x => err ≠ none ∧ Rest tid o W x := by
  refine triple_ite (fun _ => triple_pure fun x hx => ⟨nofun, hx⟩) fun hbad => ?_
  rw [Bool.not_eq_true] at hbad
  refine triple_bind triple_mtxUnlock fun err => triple_or (triple_and fun herr => ?_) (triple_and fun herr => ?_)
  · exact absurd ⟨hbad, herr.1⟩ h
  · obtain ⟨-, rfl⟩ := herr
    exact triple_pure fun x hx => ⟨nofun, hx⟩

/-- A wait that locks again leaves the thread with the mutexes that it had. -/
theorem triple_cndTimedwait (h : a.Relocks timeout) (hbad : badTimeout timeout = false) (hW : W m) :
    Triple (terms ι δ tid) (Rest tid o W) (cndTimedwait tid m timeout a) fun _ => Rest tid o (gain (drop W m) m) := by
  refine triple_ite (fun hbad' => ?_) fun _ => ?_
  · rw [hbad] at hbad'
    cases hbad'
  refine triple_bind triple_mtxUnlock fun err => triple_or (triple_and fun herr => ?_) (triple_and fun herr => ?_)
  · obtain ⟨-, rfl⟩ := herr
    refine triple_bind triple_robustOpStart fun _ => triple_bind triple_answered fun err => triple_and fun herr => ?_
    subst herr
    exact triple_bind (triple_lockTimedout h) fun err => triple_bind triple_lockAgain fun err => triple_cndFinish
  · exact absurd hW herr.1

/-! ### The other waits -/

section Lost

variable {s x y z : State ι δ} {e : Err}

/-- What the others do; the thread may do anything. -/
def anyhow (ι δ : Type) (tid : Tid) : Terms (State ι δ) where
  rely := Interferes tid
  refl := .refl
  trans := .trans
  guar _ _ := True
  guar_refl _ := trivial
  inv _ := True
  inv_rely _ _ := trivial

omit [DecidableEq ι] in
/-- An action on the links alone. -/
theorem triple_lost {α : Type} {f : State ι δ → α → State ι δ → Prop} (h : ∀ s b t, f s b t → t.ftx = s.ftx) :
    Triple (anyhow ι δ tid) (fun x => ¬ Own tid x m) (act f) fun _ x => ¬ Own tid x m := by
  refine triple_act_of_rely (fun x s hx hs => mt (hs.own m).mp hx) fun s b t hs _ hf =>
    ⟨trivial, fun hown => hs ?_, trivial⟩
  rw [Own, h s b t hf] at hown
  exact hown

/-- The mutex that is put on the list is not the thread's, then or later. -/
theorem triple_cndFinish_lost {err : Option Err} : Triple (anyhow ι δ tid) (fun x => ¬ Own tid x m) (cndFinish m err)
    fun _ x => ¬ Own tid x m := by
  have hadd : Triple (anyhow ι δ tid) (fun x => ¬ Own tid x m) (robustOpAdd m) fun _ x => ¬ Own tid x m := by
    refine triple_bind triple_load_any fun old => ?_
    refine triple_bind (triple_lost fun _ _ _ ht => by rw [ht]; rfl) fun _ => ?_
    refine triple_bind (triple_lost fun _ _ _ ht => by rw [ht]; rfl) fun _ => ?_
    refine triple_bind (triple_lost fun _ _ _ ht => by rw [ht]; rfl) fun _ => ?_
    refine triple_ite (fun _ => ?_) fun _ => triple_pure fun x hx => hx
    exact triple_lost fun _ _ _ ht => by rw [ht]; rfl
  refine triple_bind hadd fun _ => triple_bind triple_cndResult fun r => ?_
  refine triple_bind (triple_lost fun _ _ _ ht => by rw [ht]; rfl) fun _ => ?_
  exact triple_pure fun x hx => hx

theorem ends_robustOpStart (m : ι) : Ends (Interferes tid) (robustOpStart (δ := δ) m) := by
  have hhead : Ends (Interferes tid) (robustInitHead : Code (State ι δ) Unit) :=
    ends_bind ends_store fun _ => ends_bind ends_store fun _ => ends_bind ends_store fun _ => ends_store
  refine ends_bind (ends_bind ends_load fun flag => ends_ite ends_pure ?_) fun _ => ends_store
  exact ends_bind hhead fun _ => ends_store

theorem ends_mtxUnlock (tid : Tid) (m : ι) : Ends (Interferes tid) (mtxUnlock (δ := δ) tid m) := by
  have hdel : Ends (Interferes tid) (robustOpDel (δ := δ) m) :=
    ends_bind ends_load fun _ => ends_bind ends_load fun _ => ends_bind ends_store fun _ =>
      ends_ite ends_store ends_pure
  have hunlock : Ends (Interferes tid) (unlockPi (δ := δ) tid m) := by
    refine ends_act fun s => ⟨(), ?_⟩
    by_cases hown : ftxTid (s.ftx m) = tid.val
    · exact ⟨_, .inl ⟨hown, 0, ftxTid_zero, rfl⟩⟩
    · exact ⟨s, .inr ⟨hown, rfl⟩⟩
  refine ends_bind ends_load fun val => ends_ite ends_pure ?_
  refine ends_bind (ends_robustOpStart m) fun _ => ends_bind hdel fun _ => ends_bind ends_store fun _ => ?_
  refine ends_bind ends_modify fun r => ends_ite (ends_bind hunlock fun _ => ?_) ?_
  · exact ends_bind ends_store fun _ => ends_pure
  · exact ends_bind ends_store fun _ => ends_pure

theorem ends_cndFinish (err : Option Err) : Ends (Interferes tid) (cndFinish (δ := δ) m err) := by
  have hadd : Ends (Interferes tid) (robustOpAdd (δ := δ) m) :=
    ends_bind ends_load fun _ => ends_bind ends_store fun _ => ends_bind ends_store fun _ =>
      ends_bind ends_store fun _ => ends_ite ends_store ends_pure
  refine ends_bind hadd fun _ => ends_bind (ends_ite ?_ ends_pure) fun _ => ends_bind ends_store fun _ => ends_pure
  exact ends_bind (ends_bind ends_load fun _ => ends_ite ends_pure ends_pure) fun _ => ends_pure

/-- Another thread takes the mutex, and the kernel refuses it. -/
theorem exists_refused (hx : ¬ Own tid x m) (code : Errno) : ∃ y, ¬ Own tid y m ∧
    Visits (Interferes tid) (mtxTimedlockRobustBy (answered tid m (some code)) tid m) x (.ret (some code)) y := by
  obtain ⟨v, hv, h0⟩ : ∃ v : Ftx, ftxTid v ≠ tid.val ∧ v ≠ 0 := by
    by_cases htid : tid.val = 1
    · refine ⟨2, ?_, by decide⟩
      rw [htid]
      decide
    · refine ⟨1, ?_, by decide⟩
      rw [ftxTid_one]
      exact Ne.symm htid
  have hy : ¬ Own tid (x.setFtx m v) m := by
    rw [own_setFtx, if_pos rfl]
    exact hv
  have hother : Interferes tid x (x.setFtx m v) := by
    refine ⟨fun i => ?_, rfl, fun _ _ => rfl, fun _ _ => rfl, rfl⟩
    rw [own_setFtx]
    split_ifs with hi
    · exact iff_of_false hv (hi ▸ hx)
    · rfl
  have hne : (x.setFtx m v).ftx m ≠ 0 := by
    rw [State.setFtx_self]
    exact h0
  have hcas : Visits (Interferes tid) (cas m 0 tid.val) (x.setFtx m v) (.ret false) (x.setFtx m v) :=
    .act (if_neg hne).symm
  have hrefuse : Visits (Interferes tid) (answered tid m (some code)) (x.setFtx m v)
      (.ret (some code)) (x.setFtx m v) :=
    .act ⟨rfl, .inl ⟨⟨code, rfl⟩, rfl⟩⟩
  refine ⟨_, hy, .env hother (.bind hcas ?_)⟩
  exact .bind hrefuse .refl

theorem exists_lockTimedout (hx : ¬ Own tid x m)
    (h : e = .sys .etimedout → a.locksTimedout ≠ none ∧ (a.locksTimedout = some .eagain → a.locksAgain ≠ none))
    (h' : e = .sys .eagain → a.locksAgain ≠ none) : ∃ e' y, ¬ Own tid y m ∧
      (e' = .sys .eagain → a.locksAgain ≠ none) ∧
        Visits (Interferes tid) (lockTimedout tid m a (some e)) x (.ret (some e')) y := by
  by_cases he : e = .sys .etimedout
  · obtain ⟨hne, hagain⟩ := h he
    obtain ⟨code, hcode⟩ := Option.ne_none_iff_exists'.mp hne
    obtain ⟨y, hy, hrefuse⟩ := exists_refused hx code
    refine ⟨.sys code, y, hy, fun heq => hagain ?_, ?_⟩
    · rw [hcode, Err.sys.inj heq]
    · rw [lockTimedout, if_pos (congrArg some he), hcode]
      exact .bind hrefuse .refl
  · refine ⟨e, x, hx, h', ?_⟩
    rw [lockTimedout, if_neg (fun heq => he (Option.some.inj heq))]
    exact .refl

theorem exists_lockAgain (hx : ¬ Own tid x m) (h : e = .sys .eagain → a.locksAgain ≠ none) : ∃ e' y, ¬ Own tid y m ∧
    Visits (Interferes tid) (lockAgain tid m a (some e)) x (.ret (some e')) y := by
  by_cases he : e = .sys .eagain
  · obtain ⟨code, hcode⟩ := Option.ne_none_iff_exists'.mp (h he)
    obtain ⟨y, hy, hrefuse⟩ := exists_refused hx code
    refine ⟨.sys code, y, hy, ?_⟩
    rw [lockAgain, if_pos (congrArg some he), hcode]
    exact .bind hrefuse .refl
  · refine ⟨e, x, hx, ?_⟩
    rw [lockAgain, if_neg (fun heq => he (Option.some.inj heq))]
    exact .refl

/-- A wait that does not lock again may leave the thread without the mutex. -/
theorem exists_lost (hs : Seen (terms ι δ tid) (Rest tid o W) s) (hbad : badTimeout timeout = false) (hW : W m)
    (h : ¬ a.Relocks timeout) :
    ∃ err t, Visits (Interferes tid) (cndTimedwait tid m timeout a) s (.ret err) t ∧ ¬ Own tid t m := by
  simp only [Answers.Relocks, not_or, not_and] at h
  obtain ⟨hnone, htimedout, hagain⟩ := h
  obtain ⟨e, he⟩ := Option.ne_none_iff_exists'.mp hnone
  rw [he] at htimedout hagain
  -- the unlock
  obtain ⟨err, x, hx⟩ := ends_mtxUnlock tid m s
  have hx' : err = none ∧ Seen (terms ι δ tid) (Rest tid o (drop W m)) x := by
    obtain ⟨z, ⟨⟨-, herr⟩, hz⟩ | ⟨⟨hno, -⟩, -⟩, hinv, hrely⟩ := (triple_mtxUnlock s hs).result hx
    · exact ⟨herr, z, hz, hinv, hrely⟩
    · exact absurd hW hno
  obtain ⟨rfl, hx'⟩ := hx'
  obtain ⟨u, y, hy⟩ := ends_robustOpStart m x
  have hlost : ¬ Own tid y m := by
    obtain ⟨z, hz, -, hrely⟩ := (triple_robustOpStart x hx').result hy
    exact fun hown => ((hz.rely hrely).own m |>.mp hown).2 rfl
  -- the wait, and the locks after it
  have hwait : Visits (Interferes tid) (answered tid m (a.requeue timeout)) y (.ret (some e)) y :=
    .act ⟨he.symm, .inl ⟨⟨e, he⟩, rfl⟩⟩
  obtain ⟨e₁, z₁, hlost₁, hagain₁, hz₁⟩ := exists_lockTimedout (a := a) (e := e) hlost
    (fun heq => htimedout (congrArg some heq)) (fun heq => hagain (congrArg some heq))
  obtain ⟨e₂, z₂, hlost₂, hz₂⟩ := exists_lockAgain (a := a) hlost₁ hagain₁
  obtain ⟨err, t, ht⟩ := ends_cndFinish (some e₂) z₂
  refine ⟨err, t, ?_, ?_⟩
  · rw [cndTimedwait, hbad, he]
    rw [he] at hwait
    exact .bind hx (.bind hy (.bind hwait (.bind hz₁ (.bind hz₂ ht))))
  · obtain ⟨z, hz, -, hrely⟩ := (triple_cndFinish_lost z₂ (.intro hlost₂ trivial)).result ht
    exact mt (hrely.own m).mp hz

end Lost

/-! ### Calls and waits -/

section Usage

variable {κ τ : Type} [DecidableEq κ] [DecidableEq τ] [DecidableEq δ] {stkn : δ → τ} {s t : State (κ ⊕ τ) δ}

/-- A call of `a0_cnd_timedwait`, and what is answered. -/
structure CndWait (κ : Type) where
  mtx : κ
  timeout : Option Timespec
  answers : Answers

def CndWait.code (tid : Tid) (w : CndWait κ) : Code (State (κ ⊕ τ) δ) (Option Err) :=
  cndTimedwait tid (.inl w.mtx) w.timeout w.answers

/-- It locks the mutex again. -/
def CndWait.Relocks (w : CndWait κ) : Prop := w.answers.Relocks w.timeout

/-- Calls and waits, one after the other. -/
def usage (tid : Tid) (stkn : δ → τ) : List (Call κ δ ⊕ CndWait κ) → Code (State (κ ⊕ τ) δ) Unit
  | [] => return
  | .inl c :: cs => do
    let _ ← c.code tid stkn
    usage tid stkn cs
  | .inr w :: cs => do
    let _ ← w.code tid
    usage tid stkn cs

omit [DecidableEq δ] in
theorem CndWait.triple {W : κ ⊕ τ → Prop} (htok : Tokens stkn o W) (w : CndWait κ) (h : w.Relocks) :
    Triple (terms (κ ⊕ τ) δ tid) (Rest tid o W) (w.code tid) fun _ => Idle tid stkn := by
  by_cases hwait : badTimeout w.timeout = false ∧ W (.inl w.mtx)
  · refine triple_post (triple_cndTimedwait h hwait.1 hwait.2) fun _ x hx => ?_
    exact ⟨o, _, htok.drop_mtx.gain_mtx, hx⟩
  · exact triple_post (triple_cndTimedwait_refused hwait) fun _ x hx => ⟨o, W, htok, hx.2⟩

theorem triple_usage (acts : List (Call κ δ ⊕ CndWait κ)) (h : ∀ w, .inr w ∈ acts → w.Relocks) :
    Triple (terms (κ ⊕ τ) δ tid) (Idle tid stkn) (usage tid stkn acts) fun _ => Idle tid stkn := by
  induction acts with
  | nil => exact triple_pure fun x hx => hx
  | cons c cs ih =>
    have hcs := ih fun w hw => h w (List.mem_cons_of_mem _ hw)
    cases c with
    | inl c =>
      refine triple_bind (triple_exists fun o => triple_exists fun W => triple_and fun htok => ?_) fun _ => hcs
      exact c.triple htok
    | inr w =>
      refine triple_bind (triple_exists fun o => triple_exists fun W => triple_and fun htok => ?_) fun _ => hcs
      exact w.triple htok (h w List.mem_cons_self)

/-- What the thread has after calls and waits. -/
theorem seen_usage {acts : List (Call κ δ ⊕ CndWait κ)} (hs : Fresh tid s) (hacts : ∀ w, .inr w ∈ acts → w.Relocks)
    (ht : Visits (Interferes tid) (usage tid stkn acts) s (.ret ()) t) :
    ∃ o W, Rest tid o W t ∧ Seen (terms (κ ⊕ τ) δ tid) (Rest tid o W) t := by
  obtain ⟨x, ⟨o, W, -, hx⟩, hinv, hrely⟩ := (triple_usage acts hacts s hs.idle).result ht
  exact ⟨o, W, hx.rely hrely, x, hx, hinv, hrely⟩

/-- After any calls, and waits that have locked again, a wait that releases its mutex returns with
the mutex in all runs if and only if it locks again. -/
theorem cnd_wait_iff {acts : List (Call κ δ ⊕ CndWait κ)} (hs : Fresh tid s) (hacts : ∀ w, .inr w ∈ acts → w.Relocks)
    (ht : Visits (Interferes tid) (usage tid stkn acts) s (.ret ()) t) (w : CndWait κ)
    (hown : Own tid t (.inl w.mtx)) (hbad : badTimeout w.timeout = false) :
    (∀ err u, Visits (Interferes tid) (w.code tid) t (.ret err) u → Reacquired tid (.inl w.mtx) u) ↔ w.Relocks := by
  obtain ⟨o, W, hx, hseen⟩ := seen_usage hs hacts ht
  have hW : W (.inl w.mtx) := hx.own.mp hown
  constructor
  · intro h
    by_contra hno
    obtain ⟨err, u, hu, hlost⟩ := exists_lost hseen hbad hW hno
    exact hlost (h err u hu).1
  · intro h err u hu
    obtain ⟨z, hz, -, hzu⟩ := (triple_cndTimedwait h hbad hW t hseen).result hu
    exact (hz.rely hzu).reacquired (.inr rfl)

/-- A wait without a timeout, which is successful. -/
def untimed : CndWait Unit := ⟨(), none, ⟨.ok ⟨0, 0⟩, .ok ⟨0, 0⟩, none, none, none⟩⟩

/-- A thread locks its mutex and waits. -/
theorem cnd_wait_iff_untimed : ∃ t,
    Visits (Interferes tidOne) (usage tidOne id [.inl (.timedlock ())]) fresh (.ret ()) t ∧
    ∀ err u, Visits (Interferes tidOne) (untimed.code tidOne) t (.ret err) u → Reacquired tidOne (.inl ()) u := by
  obtain ⟨t, hlock, hown⟩ := exists_timedlock
  have ht : Visits (Interferes tidOne) (usage tidOne id [.inl (.timedlock ())]) fresh (.ret ()) t := .bind hlock .refl
  refine ⟨t, ht, (cnd_wait_iff fresh_fresh (fun w hw => by simp at hw) ht untimed hown rfl).mpr (.inl rfl)⟩

/-- A deadline five seconds after boot, a thousand seconds after boot of which the system was
suspended for all but ten. -/
def suspended : CndWait Unit := ⟨(), some ⟨5, 0⟩, ⟨.ok ⟨1000, 0⟩, .ok ⟨10, 0⟩, none, none, none⟩⟩

theorem suspended_requeue : suspended.answers.requeue suspended.timeout = some (.sys .einval) := by
  decide

/-- The kernel rejects the deadline, which is before the boot of its clock, and the thread is
left without the mutex. -/
theorem not_cnd_wait : badTimeout suspended.timeout = false ∧
    ∃ t, Visits (Interferes tidOne) (usage tidOne id [.inl (.timedlock ())]) fresh (.ret ()) t ∧
      Own tidOne t (.inl ()) ∧
      ∃ err u, Visits (Interferes tidOne) (suspended.code tidOne) t (.ret err) u ∧ ¬ Reacquired tidOne (.inl ()) u := by
  obtain ⟨t, hlock, hown⟩ := exists_timedlock
  have ht : Visits (Interferes tidOne) (usage tidOne id [.inl (.timedlock ())]) fresh (.ret ()) t := .bind hlock .refl
  refine ⟨rfl, t, ht, hown, ?_⟩
  obtain ⟨o, W, hx, hseen⟩ := seen_usage fresh_fresh (fun w hw => by simp at hw) ht
  have hno : ¬ suspended.answers.Relocks suspended.timeout := by simp [Answers.Relocks, suspended_requeue]
  have hbad : badTimeout suspended.timeout = false := rfl
  obtain ⟨err, u, hu, hlost⟩ := exists_lost hseen hbad (hx.own.mp hown) hno
  exact ⟨err, u, hu, fun h => hlost h.1⟩

end Usage

end Robust

end AlephZero
