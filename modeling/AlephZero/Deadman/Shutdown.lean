import AlephZero.Deadman.Basic
import AlephZero.Machine.Fairness

/-!
# Shutting a deadman mutex down

`a0_deadman_mtx_shutdown` sets `_shutdown`, and wakes all that sleep on the token until `_inop` is false.

## The model

That of the deadman mutex, where a thread `u`, which does not die, has one object; somebody shuts it down.
A call that may wait sets `_inop` before its loop, and clears it behind it; `a0_deadman_mtx_trylock` and
`a0_deadman_mtx_unlock` do not. The other threads do what they do in the deadman mutex.

Which calls are made, and when, is up to the program around them, as is the end of a wait by time or for no
reason up to the kernel: these steps are nobody's turn. A thread that is asleep has none.

## What is proved

* `Pc.rank` — once `_shutdown` is set, each step of a call lowers it.
* **`shutdown_drains`** — once `_shutdown` is set the thread goes to sleep at most once, and never behind
  the call it was in; and that call has returned as `a0_deadman_mtx_shutdown` returns.
* **`shutdown_returns`** — in a fair run each call returns then; and `a0_deadman_mtx_shutdown`, if no other is made.
-/

namespace AlephZero.Deadman

/-- The calls of the thread that may wait. -/
inductive Op where
  | out
  /-- `_inop` has been set. -/
  | entering (w : Wait Unit)
  /-- In the loop, or behind it. -/
  | inside

/-- Where `a0_deadman_mtx_shutdown` is. -/
inductive ClosePc where
  | out
  /-- Before it loads `_inop`. -/
  | loading
  /-- Before the broadcast. -/
  | ringing
  | returned

/-- An object that is shut down. -/
structure Closing (ι : Type) where
  token : Threads ι (SharedToken ι) (Thread Unit)
  op : Op
  inop : Bool
  shutdown : Bool
  close : ClosePc
  /-- The call that the thread was in as `_shutdown` was set has not returned. -/
  pending : Bool
  /-- How often the thread has gone to sleep since. -/
  waits : ℕ

/-- Whose turn a step is. -/
inductive Turn where
  | user
  | closer
  | nobody
  deriving DecidableEq

/-- The thread sleeps. -/
def Pc.isAsleep {Ω : Type} : Pc Ω → Bool
  | .sleep _ => true
  | _ => false

/-- It loads `_shutdown`. -/
def Pc.loadsShutdown {Ω : Type} : Pc Ω → Bool
  | .tryShutdown _ _ | .waitShutdown _ _ => true
  | _ => false

namespace Closing

variable {ι : Type} [DecidableEq ι] (σ : Closing ι)

/-- A thread does a step. -/
def goes (i : ι) (s : SharedToken ι) (t : Thread Unit) : Closing ι :=
  { σ with token := ⟨s, Function.update σ.token.loc i t⟩ }

/-- How often the thread has gone to sleep, if it is there then. -/
def waited (pc : Pc Unit) : ℕ := if σ.shutdown = true ∧ pc.isAsleep = true then σ.waits + 1 else σ.waits

end Closing

variable {ι : Type} [DecidableEq ι]

/-- What may happen. -/
inductive Step (tid : ι → Tid) (u : ι) : Turn → Closing ι → Closing ι → Prop where
  | stays (σ : Closing ι) : Step tid u .nobody σ σ
  | others (σ : Closing ι) (i : ι) (s : SharedToken ι) (t : Thread Unit) (hi : i ≠ u) (h : Act tid i σ.token s t) :
      Step tid u .nobody σ (σ.goes i s t)
  /-- A wait ends. -/
  | stirs (σ : Closing ι) (w : Wait Unit) (s : SharedToken ι) (t : Thread Unit) (hpc : (σ.token.loc u).pc = .sleep w)
      (h : Act tid u σ.token s t) (hdead : t.pc ≠ .dead) : Step tid u .nobody σ (σ.goes u s t)
  /-- A call that may wait; a lock is of who is not the owner. -/
  | enters (σ : Closing ι) (w : Wait Unit) (r : Option Result) (hop : σ.op = .out) (hpc : (σ.token.loc u).pc = .idle r)
      (hw : ∀ d, w = .lock d → (σ.token.loc u).isOwner d = false) :
      Step tid u .nobody σ { σ with op := .entering w, inop := true }
  /-- One that does not. -/
  | calls (σ : Closing ι) (r : Option Result) (s : SharedToken ι) (t : Thread Unit) (hop : σ.op = .out)
      (hpc : (σ.token.loc u).pc = .idle r) (h : Act tid u σ.token s t) (hdead : t.pc ≠ .dead)
      (hshort : ∀ w : Wait Unit, t.pc ≠ w.restart) : Step tid u .nobody σ (σ.goes u s t)
  | begins (σ : Closing ι) (w : Wait Unit) (r : Option Result) (s : SharedToken ι) (t : Thread Unit)
      (hop : σ.op = .entering w) (hpc : (σ.token.loc u).pc = .idle r) (h : Act tid u σ.token s t)
      (ht : t.pc = w.restart) : Step tid u .user σ { σ.goes u s t with op := .inside }
  /-- The thread goes on with its call, and finds `_shutdown` as it is. -/
  | goes (σ : Closing ι) (s : SharedToken ι) (t : Thread Unit) (h : Act tid u σ.token s t)
      (hidle : ∀ r, (σ.token.loc u).pc ≠ .idle r) (hmoves : t.pc ≠ (σ.token.loc u).pc) (hdead : t.pc ≠ .dead)
      (hsleep : (σ.token.loc u).pc.isAsleep = true → σ.token.shared.asleep u = false)
      (hshut : (σ.token.loc u).pc.loadsShutdown = true →
        (σ.shutdown = true ↔ t.pc = .idle (some (.failed .eshutdown)))) :
      Step tid u .user σ { σ.goes u s t with waits := σ.waited t.pc }
  | leaves (σ : Closing ι) (r : Option Result) (hop : σ.op = .inside) (hpc : (σ.token.loc u).pc = .idle r) :
      Step tid u .user σ { σ with op := .out, inop := false, pending := false }
  /-- `a0_deadman_mtx_shutdown` is called. -/
  | shuts (σ : Closing ι) (hclose : σ.close = .out) :
      Step tid u .nobody σ { σ with shutdown := true, close := .loading, pending := σ.inop }
  | loads (σ : Closing ι) (hclose : σ.close = .loading) :
      Step tid u .closer σ { σ with close := if σ.inop then .ringing else .returned }
  | rings (σ : Closing ι) (hclose : σ.close = .ringing) :
      Step tid u .closer σ { σ with token := ⟨σ.token.shared.broadcast, σ.token.loc⟩, close := .loading }

/-- At first the token is zero, and nobody has done anything. -/
def Closing.Init (σ : Closing ι) : Prop :=
  σ.token.shared = .fresh ∧ (∀ i, σ.token.loc i = .fresh Unit) ∧ σ.op = .out ∧ σ.inop = false ∧
    σ.shutdown = false ∧ σ.close = .out ∧ σ.pending = false ∧ σ.waits = 0

/-- The runs. -/
def closings (tid : ι → Tid) (u : ι) : TransitionSystem (Closing ι) where
  init := Closing.Init
  step σ τ := ∃ a, Step tid u a σ τ

/-! ### What a step of the thread leads to -/

/-- How many steps of its own a thread is from the end of a call, at most, once `_shutdown` is set. -/
def Pc.rank {Ω : Type} : Pc Ω → ℕ
  | .dead => 0
  | .idle _ => 1
  | .tryShutdown _ _ | .lockedToken _ | .waitShutdown _ _ | .acquireBroadcast _ | .unlockBroadcast => 2
  | .lockLoad _ | .lockedLoad | .unlockedToken _ _ | .tokenStore _ _ | .unlockStore _ => 3
  | .unlockedLoad _ | .tokenLoad _ => 4
  | .sleep _ => 5
  | .wait _ _ => 6
  | .setWaiters _ _ => 7
  | .tryCas _ _ _ => 8
  | .tryLoad _ _ => 9

/-- It is past the load of `_shutdown`, on its way to sleep. -/
def Pc.isDue {Ω : Type} : Pc Ω → Bool
  | .tryLoad _ (.timedlock _) | .tryCas _ (.timedlock _) _ | .setWaiters _ _ | .wait _ _ => true
  | _ => false

/-- In no call, or in one that does not wait. -/
def Pc.isShort {Ω : Type} : Pc Ω → Bool
  | .idle _ | .tryShutdown _ .trylock | .tryLoad _ .trylock | .tryCas _ .trylock _ | .tokenLoad _ | .tokenStore _ _
  | .acquireBroadcast _ | .unlockStore _ | .unlockBroadcast => true
  | _ => false

@[simp] theorem Wait.restart_rank {Ω : Type} (w : Wait Ω) : w.restart.rank ≤ 4 := by
  cases w <;> simp [Wait.restart, Pc.rank]

@[simp] theorem Wait.restart_isDue {Ω : Type} (w : Wait Ω) : w.restart.isDue = false := by
  cases w <;> rfl

@[simp] theorem Wait.restart_isAsleep {Ω : Type} (w : Wait Ω) : w.restart.isAsleep = false := by
  cases w <;> rfl

variable {tid : ι → Tid} {u i : ι} {σ τ : Closing ι} {s : SharedToken ι} {t : Thread Unit} {a : Turn}
  {ω : Threads ι (SharedToken ι) (Thread Unit)}

/-- Once `_shutdown` is set, a step of a call lowers the rank. -/
theorem Act.rank_lt (h : Act tid u ω s t) (hidle : ∀ r, (ω.loc u).pc ≠ .idle r) (hmoves : t.pc ≠ (ω.loc u).pc)
    (hdead : t.pc ≠ .dead) (halive : (ω.loc u).pc ≠ .dead)
    (hshut : (ω.loc u).pc.loadsShutdown = true → t.pc = .idle (some (.failed .eshutdown))) :
    t.pc.rank < (ω.loc u).pc.rank := by
  cases h with
  | load t h =>
    cases h with
    | callLockAgain r _ hpc | callTrylock r _ hpc | callTimedlock r _ hpc | callUnlock r _ hpc
    | callUnlockOther r _ hpc | callWaitLocked r hpc | callWaitUnlocked r _ hpc => exact absurd hpc (hidle r)
    | tryShutdown d caller hpc => cases hshut (by rw [hpc]; rfl)
    | waitShutdown w old hpc => cases hshut (by rw [hpc]; rfl)
    | tryBusy _ caller hpc | tryCasFails _ caller _ hpc => cases caller <;> rw [hpc] <;> simp [Caller.busy, Pc.rank]
    | setWaitersFails w _ hpc | waitChanged w _ hpc | wakes w hpc =>
      rw [hpc]
      exact Nat.lt_of_le_of_lt (Wait.restart_rank w) (by simp [Pc.rank])
    | born hpc => exact absurd hpc halive
    | lockLoad _ hpc | tryIsShutdown _ _ hpc | tryFree _ _ hpc | tryOwn _ _ hpc | tokenLoad _ hpc | lockedNot hpc
    | lockedSeen hpc | lockedToken _ hpc | unlockedNow _ hpc | unlockedNot _ hpc | unlockedOther _ _ hpc
    | unlockedSame _ _ hpc | waitIsShutdown _ _ hpc | waitFails _ _ _ hpc => rw [hpc]; simp [Pc.rank]
  | stirs => exact absurd rfl hmoves
  | shutsDown r hpc => exact absurd hpc (hidle r)
  | ownerDies | otherDies => exact absurd rfl hdead
  | acquires _ _ _ hpc | counts _ _ hpc | acquireBroadcasts _ hpc | releases _ hpc | unlockBroadcasts hpc
  | setsWaiters _ _ hpc | sleeps _ _ hpc | givesUp _ _ hpc => rw [hpc]; simp [Pc.rank]

/-- And it gets no nearer to sleep. -/
theorem Act.not_due (h : Act tid u ω s t) (hidle : ∀ r, (ω.loc u).pc ≠ .idle r) (hdead : t.pc ≠ .dead)
    (hshut : (ω.loc u).pc.loadsShutdown = true → t.pc = .idle (some (.failed .eshutdown)))
    (hdue : (ω.loc u).pc.isDue = false) : t.pc.isDue = false := by
  cases h with
  | load t h =>
    cases h with
    | callLockAgain r _ hpc | callTrylock r _ hpc | callTimedlock r _ hpc | callUnlock r _ hpc
    | callUnlockOther r _ hpc | callWaitLocked r hpc | callWaitUnlocked r _ hpc => exact absurd hpc (hidle r)
    | tryShutdown d caller hpc => cases hshut (by rw [hpc]; rfl)
    | waitShutdown w old hpc => cases hshut (by rw [hpc]; rfl)
    | tryFree _ caller hpc | tryBusy _ caller hpc | tryCasFails _ caller _ hpc =>
      rw [hpc] at hdue
      cases caller <;> first | rfl | cases hdue
    | setWaitersFails w | waitChanged w | wakes w => exact Wait.restart_isDue w
    | born | lockLoad | tryIsShutdown | tryOwn | tokenLoad | lockedNot | lockedSeen | lockedToken | unlockedNow
    | unlockedNot | unlockedOther | unlockedSame | waitIsShutdown | waitFails => rfl
  | stirs w hpc => exact hdue
  | shutsDown r hpc => exact hdue
  | ownerDies | otherDies => exact absurd rfl hdead
  | setsWaiters w old hpc =>
    rw [hpc] at hdue
    cases hdue
  | acquires | counts | acquireBroadcasts | releases | unlockBroadcasts | sleeps | givesUp => rfl

/-- It goes to sleep only from there. -/
theorem Act.due_of_asleep (h : Act tid u ω s t) (hmoves : t.pc ≠ (ω.loc u).pc) (ht : t.pc.isAsleep = true) :
    (ω.loc u).pc.isDue = true := by
  cases h with
  | load t h =>
    cases h with
    | tryBusy _ caller | tryCasFails _ caller => cases caller <;> cases ht
    | setWaitersFails w | waitChanged w | wakes w =>
      rw [Wait.restart_isAsleep] at ht
      cases ht
    | _ => cases ht
  | sleeps w new hpc => rw [hpc]; rfl
  | stirs | shutsDown => exact absurd rfl hmoves
  | _ => cases ht

/-- A call that does not wait goes on as one. -/
theorem Act.short (h : Act tid u ω s t) (hpc : (ω.loc u).pc.isShort = true) (hdead : t.pc ≠ .dead)
    (hnot : (∃ r, (ω.loc u).pc = .idle r) → ∀ w : Wait Unit, t.pc ≠ w.restart) : t.pc.isShort = true := by
  cases h with
  | load t h =>
    cases h with
    | callTimedlock r d hidle => exact absurd rfl (hnot ⟨r, hidle⟩ (.lock d))
    | callWaitLocked r hidle => exact absurd rfl (hnot ⟨r, hidle⟩ .locked)
    | callWaitUnlocked r tkn hidle => exact absurd rfl (hnot ⟨r, hidle⟩ (.unlocked tkn))
    | tryShutdown _ caller h | tryFree _ caller h | tryBusy _ caller h | tryCasFails _ caller _ h =>
      rw [h] at hpc
      cases caller <;> first | rfl | cases hpc
    | lockLoad _ h | lockedNot h | lockedSeen h | unlockedNot _ h | unlockedSame _ _ h | waitShutdown _ _ h
    | setWaitersFails _ _ h | waitChanged _ _ h | wakes _ h =>
      rw [h] at hpc
      cases hpc
    | _ => rfl
  | stirs | shutsDown => exact hpc
  | ownerDies | otherDies => exact absurd rfl hdead
  | setsWaiters _ _ h | sleeps _ _ h =>
    rw [h] at hpc
    cases hpc
  | _ => rfl

/-! ### Who is asleep -/

/-- A thread that is asleep is where it went to sleep. -/
theorem Act.asleep_own (h : Act tid u ω s t) (hasleep : ω.shared.asleep u = true → (ω.loc u).pc.isAsleep = true)
    (hs : s.asleep u = true) : t.pc.isAsleep = true := by
  cases h with
  | load t h =>
    have hpc := hasleep hs
    cases h with
    | wakes w hpc' ha =>
      rw [ha] at hs
      cases hs
    | callLockAgain _ _ h | callTrylock _ _ h | callTimedlock _ _ h | callUnlock _ _ h
    | callUnlockOther _ _ h | callWaitLocked _ h | callWaitUnlocked _ _ h | lockLoad _ h | tryShutdown _ _ h
    | tryIsShutdown _ _ h | tryFree _ _ h | tryOwn _ _ h | tryBusy _ _ h | tryCasFails _ _ _ h | tokenLoad _ h
    | lockedNot h | lockedSeen h | lockedToken _ h | unlockedNow _ h | unlockedNot _ h | unlockedOther _ _ h
    | unlockedSame _ _ h | waitShutdown _ _ h | waitIsShutdown _ _ h | setWaitersFails _ _ h | waitChanged _ _ h
    | waitFails _ _ _ h | born h =>
      rw [h] at hpc
      cases hpc
  | sleeps => rfl
  | stirs | givesUp | ownerDies | otherDies => simp [SharedToken.wake] at hs
  | acquireBroadcasts | unlockBroadcasts | shutsDown => simp [SharedToken.broadcast] at hs
  | acquires _ _ _ h | counts _ _ h | releases _ h | setsWaiters _ _ h =>
    have hpc := hasleep hs
    rw [h] at hpc
    cases hpc

/-- Others put nobody to sleep. -/
theorem Act.asleep_other (h : Act tid i ω s t) (hi : i ≠ u) (hs : s.asleep u = true) : ω.shared.asleep u = true := by
  have hu : u ≠ i := Ne.symm hi
  cases h with
  | sleeps | stirs | givesUp | otherDies => simpa [SharedToken.sleep, SharedToken.wake, hu] using hs
  | acquireBroadcasts | unlockBroadcasts | shutsDown => simp [SharedToken.broadcast] at hs
  | ownerDies woken =>
    cases woken with
    | none => simpa [SharedToken.wakeOne, SharedToken.die, SharedToken.wake, hu] using hs
    | some j =>
      by_cases hj : u = j
      · subst hj
        simp [SharedToken.wakeOne, SharedToken.wake, hu] at hs
      · simpa [SharedToken.wakeOne, SharedToken.die, SharedToken.wake, hu, hj] using hs
  | load | acquires | counts | releases | setsWaiters => exact hs

/-- Nor does the end of a wait. -/
theorem Act.asleep_stirs {w : Wait Unit} (h : Act tid u ω s t) (hpc : (ω.loc u).pc = .sleep w)
    (hs : s.asleep u = true) : ω.shared.asleep u = true := by
  cases h with
  | load => exact hs
  | stirs | givesUp | ownerDies | otherDies => simp [SharedToken.wake] at hs
  | acquires _ _ _ hpc' | counts _ _ hpc' | acquireBroadcasts _ hpc' | releases _ hpc' | unlockBroadcasts hpc'
  | setsWaiters _ _ hpc' | sleeps _ _ hpc' | shutsDown _ hpc' => cases hpc.symm.trans hpc'

/-! ### The invariant -/

/-- How far everybody is. -/
structure Closing.Good (u : ι) (σ : Closing ι) : Prop where
  alive : (σ.token.loc u).pc ≠ .dead
  asleep : σ.token.shared.asleep u = true → (σ.token.loc u).pc.isAsleep = true
  inop : σ.inop = true ↔ σ.op ≠ .out
  short : σ.op = .out → (σ.token.loc u).pc.isShort = true
  entering : ∀ w, σ.op = .entering w → (∃ r, (σ.token.loc u).pc = .idle r) ∧
    ∀ d, w = .lock d → (σ.token.loc u).isOwner d = false
  /-- While the call is pending, `a0_deadman_mtx_shutdown` is in its loop. -/
  pending : σ.pending = true → σ.inop = true ∧ σ.shutdown = true ∧ (σ.close = .loading ∨ σ.close = .ringing)
  shut : σ.shutdown = true ↔ σ.close ≠ .out
  /-- Behind it the thread is not on its way to sleep. -/
  late : σ.shutdown = true → σ.pending = false → (σ.token.loc u).pc.isDue = false ∧ (σ.token.loc u).pc.isAsleep = false
  waits : σ.waits = 0 ∨ σ.waits = 1 ∧ σ.shutdown = true ∧ (σ.token.loc u).pc.isDue = false

@[simp] theorem Closing.goes_own : (σ.goes u s t).token.loc u = t := Function.update_self ..

theorem Closing.goes_other (hi : i ≠ u) : (σ.goes i s t).token.loc u = σ.token.loc u :=
  Function.update_of_ne (Ne.symm hi) ..

theorem Pc.not_due_of_short {pc : Pc Unit} (h : pc.isShort = true) : pc.isDue = false ∧ pc.isAsleep = false := by
  revert h
  fun_cases Pc.isShort <;> simp [Pc.isDue, Pc.isAsleep]

/-- The thread does a step. -/
theorem Closing.Good.own (hG : σ.Good u) (hact : Act tid u σ.token s t) (hdead : t.pc ≠ .dead)
    (hshort : σ.op = .out → t.pc.isShort = true) (hentering : ∀ w, σ.op ≠ .entering w)
    (hdue : σ.shutdown = true → (σ.token.loc u).pc.isDue = false → t.pc.isDue = false)
    (hasleep : σ.shutdown = true → σ.pending = false → t.pc.isAsleep = false) : (σ.goes u s t).Good u where
  alive := by rwa [goes_own]
  asleep hs := by
    rw [goes_own]
    exact hact.asleep_own hG.asleep hs
  inop := hG.inop
  short hop := by
    rw [goes_own]
    exact hshort hop
  entering w hop := absurd hop (hentering w)
  pending := hG.pending
  shut := hG.shut
  late hs hp := by
    rw [goes_own]
    exact ⟨hdue hs (hG.late hs hp).1, hasleep hs hp⟩
  waits := by
    rw [goes_own]
    rcases hG.waits with hw | ⟨hw, hs, hd⟩
    · exact .inl hw
    · exact .inr ⟨hw, hs, hdue hs hd⟩

theorem Step.good (h : Step tid u a σ τ) (hG : σ.Good u) : τ.Good u := by
  cases h with
  | stays => exact hG
  | others _ i s t hi hact =>
    have hloc : (σ.goes i s t).token.loc u = σ.token.loc u := Closing.goes_other hi
    exact {
      alive := by rw [hloc]; exact hG.alive
      asleep := fun hs => by rw [hloc]; exact hG.asleep (hact.asleep_other hi hs)
      inop := hG.inop
      short := fun hop => by rw [hloc]; exact hG.short hop
      entering := fun w hop => by rw [hloc]; exact hG.entering w hop
      pending := hG.pending
      shut := hG.shut
      late := fun hs hp => by rw [hloc]; exact hG.late hs hp
      waits := by rw [hloc]; exact hG.waits }
  | stirs _ w s t hpc hact hdead =>
    refine hG.own hact hdead (fun hop => ?_) (fun w hop => ?_) (fun _ hdue => ?_) fun hs hp => ?_
    · have hshort := hG.short hop
      rw [hpc] at hshort
      cases hshort
    · obtain ⟨⟨r, hidle⟩, -⟩ := hG.entering w hop
      cases hpc.symm.trans hidle
    · exact hact.not_due (by simp [hpc]) hdead (by simp [hpc, Pc.loadsShutdown]) hdue
    · have hawake := (hG.late hs hp).2
      rw [hpc] at hawake
      cases hawake
  | enters _ w r hop hpc hw =>
    exact { hG with
      inop := by simp
      short := fun hout => by cases hout
      entering := fun w' hw' => by
        cases hw'
        exact ⟨⟨r, hpc⟩, hw⟩
      pending := fun hp => ⟨rfl, (hG.pending hp).2⟩ }
  | calls _ r s t hop hpc hact hdead hshort =>
    have hs : t.pc.isShort = true := hact.short (hG.short hop) hdead fun _ => hshort
    have hnot := Pc.not_due_of_short hs
    exact hG.own hact hdead (fun _ => hs) (by simp [hop]) (fun _ _ => hnot.1) fun _ _ => hnot.2
  | begins _ w r s t hop hpc hact ht =>
    have halive : t.pc ≠ .dead := by rw [ht]; cases w <;> simp [Wait.restart]
    have hdue : t.pc.isDue = false := by rw [ht, Wait.restart_isDue]
    have hasleep : t.pc.isAsleep = false := by rw [ht, Wait.restart_isAsleep]
    exact {
      alive := by rwa [Closing.goes_own]
      asleep := fun hs => by
        rw [Closing.goes_own]
        exact hact.asleep_own hG.asleep hs
      inop := iff_of_true (hG.inop.mpr (by simp [hop])) (by simp)
      short := fun hout => by cases hout
      entering := fun w hw => by cases hw
      pending := hG.pending
      shut := hG.shut
      late := fun _ _ => by
        rw [Closing.goes_own]
        exact ⟨hdue, hasleep⟩
      waits := by
        rw [Closing.goes_own]
        exact hG.waits.imp_right fun hw => ⟨hw.1, hw.2.1, hdue⟩ }
  | goes _ s t hact hidle hmoves hdead hsleep hshut =>
    have hstop : σ.shutdown = true → (σ.token.loc u).pc.loadsShutdown = true →
        t.pc = .idle (some (.failed .eshutdown)) := fun hs hl => (hshut hl).mp hs
    have hfrom : t.pc.isAsleep = true → (σ.token.loc u).pc.isDue = true := hact.due_of_asleep hmoves
    have hgoes : (σ.goes u s t).Good u := by
      refine hG.own hact hdead (fun hop => ?_) (fun w hop => ?_) (fun hs => ?_) fun hs hp => ?_
      · refine hact.short (hG.short hop) hdead fun hr => ?_
        obtain ⟨r, hr⟩ := hr
        exact absurd hr (hidle r)
      · obtain ⟨⟨r, hr⟩, -⟩ := hG.entering w hop
        exact hidle r hr
      · exact hact.not_due hidle hdead (hstop hs)
      · rw [Bool.eq_false_iff]
        intro hasleep
        have hdue := (hG.late hs hp).1
        rw [hfrom hasleep] at hdue
        cases hdue
    exact { hgoes with
      waits := by
        show σ.waited t.pc = 0 ∨ _
        rw [Closing.waited]
        split_ifs with hw
        · have hzero : σ.waits = 0 := hG.waits.resolve_right fun hone => by
            rw [hfrom hw.2] at hone
            cases hone.2.2
          refine .inr ⟨by rw [hzero], hw.1, ?_⟩
          rw [Closing.goes_own]
          cases hpc : t.pc with
          | sleep => rfl
          | _ =>
            rw [hpc] at hw
            cases hw.2
        · exact hgoes.waits }
  | leaves _ r hop hpc =>
    exact { hG with
      inop := by simp
      short := fun _ => by rw [hpc]; rfl
      entering := fun w hw => by cases hw
      pending := fun hp => by cases hp
      late := fun _ _ => by rw [hpc]; exact ⟨rfl, rfl⟩ }
  | shuts _ hclose =>
    have hopen : σ.shutdown ≠ true := fun hs => hG.shut.mp hs hclose
    exact { hG with
      pending := fun hp => ⟨hp, rfl, .inl rfl⟩
      shut := by simp
      late := fun _ hp => by
        have hop : σ.op = .out := by
          by_contra hne
          rw [hG.inop.mpr hne] at hp
          cases hp
        exact Pc.not_due_of_short (hG.short hop)
      waits := .inl (hG.waits.resolve_right fun hone => hopen hone.2.1) }
  | loads _ hclose =>
    have hs : σ.shutdown = true := hG.shut.mpr (by simp [hclose])
    exact { hG with
      pending := fun hp => by
        obtain ⟨hin, -, -⟩ := hG.pending hp
        exact ⟨hin, hs, by simp [hin]⟩
      shut := by
        show σ.shutdown = true ↔ (if σ.inop then ClosePc.ringing else .returned) ≠ .out
        simp only [hs, true_iff]
        split_ifs <;> simp }
  | rings _ hclose =>
    have hs : σ.shutdown = true := hG.shut.mpr (by simp [hclose])
    exact { hG with
      asleep := fun hb => by simp [SharedToken.broadcast] at hb
      pending := fun hp => ⟨(hG.pending hp).1, hs, .inl rfl⟩
      shut := by simp [hs] }

theorem good_isInvariant (tid : ι → Tid) (u : ι) : (closings tid u).IsInvariant (Closing.Good u) where
  init σ h := by
    obtain ⟨hs, hloc, hop, hin, hshut, hclose, hp, hw⟩ := h
    exact {
      alive := by simp [hloc, Thread.fresh]
      asleep := fun ha => by simp [hs, SharedToken.fresh] at ha
      inop := by simp [hin, hop]
      short := fun _ => by rw [hloc]; rfl
      entering := fun w hw => by
        rw [hop] at hw
        cases hw
      pending := fun h => by
        rw [hp] at h
        cases h
      shut := by simp [hshut, hclose]
      late := fun h => by
        rw [hshut] at h
        cases h
      waits := .inl hw }
  step σ τ hG hst := by
    obtain ⟨a, hst⟩ := hst
    exact hst.good hG

/-- How far the call is from its end. -/
def Closing.rank (u : ι) (σ : Closing ι) : ℕ :=
  match σ.op with
  | .out => 0
  | .entering _ => 5
  | .inside => (σ.token.loc u).pc.rank

/-- How far a thread that is asleep is from the broadcast. -/
def Closing.phase (u : ι) (σ : Closing ι) : ℕ :=
  if σ.token.shared.asleep u then
    match σ.close with
    | .ringing => 1
    | _ => 2
  else 0

def Closing.measure (u : ι) (σ : Closing ι) : ℕ := 3 * σ.rank u + σ.phase u

/-- Whose step brings it nearer. -/
def Closing.helper (u : ι) (σ : Closing ι) : Turn := if σ.token.shared.asleep u then .closer else .user

/-- `_shutdown` is set, and the thread is in a call that may wait. -/
structure Closing.InCall (u : ι) (σ : Closing ι) : Prop where
  good : σ.Good u
  shut : σ.shutdown = true
  op : σ.op ≠ .out

/-- `_shutdown` is set, and the thread is in no such call. -/
structure Closing.Left (u : ι) (σ : Closing ι) : Prop where
  good : σ.Good u
  shut : σ.shutdown = true
  op : σ.op = .out
  close : σ.close ≠ .returned

omit [DecidableEq ι] in
theorem Closing.phase_le : σ.phase u ≤ 2 := by
  unfold phase
  split
  · split <;> omega
  · omega

omit [DecidableEq ι] in
/-- A lower rank is a lower measure. -/
theorem Closing.measure_lt (h : τ.rank u < σ.rank u) : τ.measure u < σ.measure u := by
  have hle : τ.phase u ≤ 2 := phase_le
  unfold measure
  omega

/-- The thread goes on in its call. -/
theorem Closing.Good.rank_goes (hG : σ.Good u) (hout : σ.op ≠ .out) (hidle : ∀ r, (σ.token.loc u).pc ≠ .idle r)
    (hlt : t.pc.rank < (σ.token.loc u).pc.rank) : (σ.goes u s t).rank u < σ.rank u := by
  cases hop : σ.op with
  | out => exact absurd hop hout
  | entering w =>
    obtain ⟨⟨r, hr⟩, -⟩ := hG.entering w hop
    exact absurd hr (hidle r)
  | inside => simpa [rank, goes, hop] using hlt

/-- A thread that is awake can go on with its call, and stops where `_shutdown` is set. -/
theorem exists_act (tid : ι → Tid) (hidle : ∀ r, (ω.loc u).pc ≠ .idle r) (halive : (ω.loc u).pc ≠ .dead)
    (hawake : ω.shared.asleep u = false) : ∃ s t, Act tid u ω s t ∧ t.pc ≠ (ω.loc u).pc ∧ t.pc ≠ .dead ∧
      ((ω.loc u).pc.loadsShutdown = true → t.pc = .idle (some (.failed .eshutdown))) := by
  rcases hpc : (ω.loc u).pc with r | d | ⟨d, caller⟩ | ⟨d, caller⟩ | ⟨d, caller, old⟩ | b | ⟨b, v⟩ | b | d | _ | _ | k |
    tkn | ⟨tkn, old⟩ | ⟨w, old⟩ | ⟨w, old⟩ | ⟨w, new⟩ | w | _
  case idle => exact absurd hpc (hidle r)
  case dead => exact absurd hpc halive
  case lockLoad => exact ⟨_, _, .load _ (.lockLoad d hpc), by simp [Pc.loadsShutdown]⟩
  case tryShutdown => exact ⟨_, _, .load _ (.tryIsShutdown d caller hpc), by simp⟩
  case waitShutdown => exact ⟨_, _, .load _ (.waitIsShutdown w old hpc), by simp⟩
  case tryLoad =>
    by_cases hfree : ftxTid ω.shared.ftx = 0
    · exact ⟨_, _, .load _ (.tryFree d caller hpc hfree), by simp [Pc.loadsShutdown]⟩
    by_cases hown : ftxTid ω.shared.ftx = (tid u).val
    · exact ⟨_, _, .load _ (.tryOwn d caller hpc hown), by simp [Pc.loadsShutdown]⟩
    · exact ⟨_, _, .load _ (.tryBusy d caller hpc hfree hown), by cases caller <;> simp [Caller.busy, Pc.loadsShutdown]⟩
  case tryCas =>
    by_cases hftx : ω.shared.ftx = old
    · exact ⟨_, _, .acquires d caller old hpc hftx, by simp [Pc.loadsShutdown]⟩
    · exact ⟨_, _, .load _ (.tryCasFails d caller old hpc hftx),
        by cases caller <;> simp [Caller.busy, Pc.loadsShutdown]⟩
  case tokenLoad => exact ⟨_, _, .load _ (.tokenLoad b hpc), by simp [Pc.loadsShutdown]⟩
  case tokenStore => exact ⟨_, _, .counts b v hpc, by simp [Pc.loadsShutdown]⟩
  case acquireBroadcast => exact ⟨_, _, .acquireBroadcasts b hpc, by simp [Pc.loadsShutdown]⟩
  case unlockStore => exact ⟨_, _, .releases d hpc, by simp [Pc.loadsShutdown]⟩
  case unlockBroadcast => exact ⟨_, _, .unlockBroadcasts hpc, by simp [Pc.loadsShutdown]⟩
  case lockedLoad =>
    by_cases hftx : ftxTid ω.shared.ftx = 0 ∨ ftxOwnerDied ω.shared.ftx = true
    · exact ⟨_, _, .load _ (.lockedNot hpc hftx), by simp [Pc.loadsShutdown]⟩
    · rw [not_or, Bool.not_eq_true] at hftx
      exact ⟨_, _, .load _ (.lockedSeen hpc hftx.1 hftx.2), by simp [Pc.loadsShutdown]⟩
  case lockedToken => exact ⟨_, _, .load _ (.lockedToken k hpc), by simp [Pc.loadsShutdown]⟩
  case unlockedLoad =>
    by_cases hftx : ftxTid ω.shared.ftx = 0 ∨ ftxOwnerDied ω.shared.ftx = true
    · exact ⟨_, _, .load _ (.unlockedNow tkn hpc hftx), by simp [Pc.loadsShutdown]⟩
    · rw [not_or, Bool.not_eq_true] at hftx
      exact ⟨_, _, .load _ (.unlockedNot tkn hpc hftx.1 hftx.2), by simp [Pc.loadsShutdown]⟩
  case unlockedToken =>
    by_cases htkn : ω.shared.tkn = tkn
    · exact ⟨_, _, .load _ (.unlockedSame tkn old hpc htkn), by simp [Pc.loadsShutdown]⟩
    · exact ⟨_, _, .load _ (.unlockedOther tkn old hpc htkn), by simp [Pc.loadsShutdown]⟩
  case setWaiters =>
    by_cases hftx : ω.shared.ftx = old
    · exact ⟨_, _, .setsWaiters w old hpc hftx, by simp [Pc.loadsShutdown]⟩
    · exact ⟨_, _, .load _ (.setWaitersFails w old hpc hftx), by cases w <;> simp [Wait.restart, Pc.loadsShutdown]⟩
  case wait =>
    by_cases hftx : ω.shared.ftx = new
    · exact ⟨_, _, .sleeps w new hpc hftx, by simp [Pc.loadsShutdown]⟩
    · exact ⟨_, _, .load _ (.waitChanged w new hpc hftx), by cases w <;> simp [Wait.restart, Pc.loadsShutdown]⟩
  case sleep => exact ⟨_, _, .load _ (.wakes w hpc hawake), by cases w <;> simp [Wait.restart, Pc.loadsShutdown]⟩

theorem Closing.InCall.enabled_user (h : σ.InCall u) (hawake : σ.token.shared.asleep u = false) :
    ∃ τ, Step tid u .user σ τ := by
  obtain ⟨hG, hs, hout⟩ := h
  cases hop : σ.op with
  | out => exact absurd hop hout
  | entering w =>
    obtain ⟨⟨r, hpc⟩, hw⟩ := hG.entering w hop
    cases w with
    | lock d => exact ⟨_, .begins σ _ r _ _ hop hpc (.load _ (.callTimedlock r d hpc (hw d rfl))) rfl⟩
    | locked => exact ⟨_, .begins σ _ r _ _ hop hpc (.load _ (.callWaitLocked r hpc)) rfl⟩
    | unlocked tkn => exact ⟨_, .begins σ _ r _ _ hop hpc (.load _ (.callWaitUnlocked r tkn hpc)) rfl⟩
  | inside =>
    by_cases hidle : ∃ r, (σ.token.loc u).pc = .idle r
    · obtain ⟨r, hpc⟩ := hidle
      exact ⟨_, .leaves σ r hop hpc⟩
    · rw [not_exists] at hidle
      obtain ⟨s, t, hact, hmoves, hdead, hstop⟩ := exists_act tid hidle hG.alive hawake
      exact ⟨_, .goes σ s t hact hidle hmoves hdead (fun _ => hawake) fun hl => iff_of_true hs (hstop hl)⟩

omit [DecidableEq ι] in
/-- Nobody but the thread itself puts it to sleep. -/
theorem Closing.measure_of_rank (hrank : τ.rank u = σ.rank u)
    (hasleep : τ.token.shared.asleep u = true → σ.token.shared.asleep u = true ∧ τ.close = σ.close) :
    τ.measure u < σ.measure u ∨ τ.measure u = σ.measure u ∧ τ.helper u = σ.helper u := by
  cases hτ : τ.token.shared.asleep u with
  | true =>
    obtain ⟨hσ, hclose⟩ := hasleep hτ
    exact .inr (by simp [measure, phase, helper, hrank, hτ, hσ, hclose])
  | false =>
    cases hσ : σ.token.shared.asleep u with
    | true =>
      left
      have hphase : 0 < σ.phase u := by
        rw [phase, if_pos hσ]
        split <;> omega
      have hzero : τ.phase u = 0 := if_neg (by simp [hτ])
      unfold measure
      omega
    | false => exact .inr (by simp [measure, phase, helper, hrank, hτ, hσ])

/-- No step leads away from the end of the call, and that of who can help leads to it. -/
theorem Step.lowers (h : Step tid u a σ τ) (hσ : σ.InCall u) (hτ : τ.InCall u) :
    τ.measure u < σ.measure u ∨ a ≠ σ.helper u ∧ τ.measure u = σ.measure u ∧ τ.helper u = σ.helper u := by
  obtain ⟨hG, hs, hout⟩ := hσ
  have hin : σ.inop = true := hG.inop.mpr hout
  have hnobody : Turn.nobody ≠ σ.helper u := by
    unfold Closing.helper
    split_ifs <;> simp
  cases h with
  | stays => exact .inr ⟨hnobody, rfl, rfl⟩
  | others _ i s t hi hact =>
    have hrank : (σ.goes i s t).rank u = σ.rank u := by
      simp only [Closing.rank, Closing.goes_other hi]
      rfl
    exact (Closing.measure_of_rank hrank fun hb => ⟨hact.asleep_other hi hb, rfl⟩).imp_right fun heq => ⟨hnobody, heq⟩
  | stirs _ w s t hpc hact hdead =>
    by_cases hsame : t.pc = (σ.token.loc u).pc
    · have hrank : (σ.goes u s t).rank u = σ.rank u := by
        simp only [Closing.rank, Closing.goes_own, hsame]
        rfl
      exact (Closing.measure_of_rank hrank fun hb => ⟨hact.asleep_stirs hpc hb, rfl⟩).imp_right fun heq =>
        ⟨hnobody, heq⟩
    · have hidle : ∀ r, (σ.token.loc u).pc ≠ .idle r := by simp [hpc]
      have hlt := hact.rank_lt hidle hsame hdead hG.alive (by simp [hpc, Pc.loadsShutdown])
      exact .inl (Closing.measure_lt (hG.rank_goes hout hidle hlt))
  | enters _ w r hop | calls _ r s t hop => exact absurd hop hout
  | begins _ w r s t hop hpc hact ht =>
    refine .inl (Closing.measure_lt ?_)
    have hle := Wait.restart_rank w
    simp only [Closing.rank, hop, Closing.goes, Function.update_self, ht]
    omega
  | goes _ s t hact hidle hmoves hdead hsleep hshut =>
    have hlt := hact.rank_lt hidle hmoves hdead hG.alive fun hl => (hshut hl).mp hs
    have hrank : (σ.goes u s t).rank u < σ.rank u := hG.rank_goes hout hidle hlt
    exact .inl (Closing.measure_lt hrank)
  | leaves => exact absurd rfl hτ.op
  | shuts _ hclose => exact absurd hclose (hG.shut.mp hs)
  | loads _ hloading =>
    cases hb : σ.token.shared.asleep u with
    | true =>
      left
      simp [Closing.measure, Closing.rank, Closing.phase, hb, hin, hloading]
    | false =>
      right
      simp [Closing.measure, Closing.rank, Closing.phase, Closing.helper, hb]
  | rings _ hringing =>
    cases hb : σ.token.shared.asleep u with
    | true =>
      left
      simp [Closing.measure, Closing.rank, Closing.phase, hb, hringing, SharedToken.broadcast]
    | false =>
      right
      simp [Closing.measure, Closing.rank, Closing.phase, Closing.helper, hb, SharedToken.broadcast]

/-- A call returns. -/
theorem inCall_ends (tid : ι → Tid) (u : ι) :
    Schedule.Ends (Step tid u) (Closing.InCall u) (Closing.measure u) (Closing.helper u) where
  enabled σ h := by
    cases hb : σ.token.shared.asleep u with
    | true =>
      -- who is asleep is still in the call it was in as `_shutdown` was set
      have hp : σ.pending = true := by
        by_contra hnot
        have hawake := (h.good.late h.shut (Bool.eq_false_iff.mpr hnot)).2
        rw [h.good.asleep hb] at hawake
        cases hawake
      obtain ⟨-, -, hclose⟩ := h.good.pending hp
      simp only [Closing.helper, hb, if_true]
      rcases hclose with hc | hc
      · exact ⟨_, .loads σ hc⟩
      · exact ⟨_, .rings σ hc⟩
    | false =>
      simp only [Closing.helper, hb]
      exact h.enabled_user hb
  step a σ τ hσ hτ hst := hst.lowers hσ hτ

/-- How far `a0_deadman_mtx_shutdown` is from its end, where `_inop` is false. -/
def ClosePc.rank : ClosePc → ℕ
  | .ringing => 2
  | _ => 1

/-- And then `a0_deadman_mtx_shutdown` does. -/
theorem left_ends (tid : ι → Tid) (u : ι) :
    Schedule.Ends (Step tid u) (Closing.Left u) (fun σ => σ.close.rank) (fun _ => .closer) where
  enabled σ h := by
    cases hc : σ.close with
    | out => exact absurd hc (h.good.shut.mp h.shut)
    | loading => exact ⟨_, .loads σ hc⟩
    | ringing => exact ⟨_, .rings σ hc⟩
    | returned => exact absurd hc h.close
  step a σ τ hσ hτ hst := by
    have hin : σ.inop = false := by
      rw [Bool.eq_false_iff]
      exact fun hin => hσ.good.inop.mp hin hσ.op
    cases hst with
    | loads _ hc => exact absurd (by simp [hin]) hτ.close
    | rings _ hc => exact .inl (by simp [hc, ClosePc.rank])
    | shuts _ hc => exact absurd hc (hσ.good.shut.mp hσ.shut)
    | stays | others | stirs | enters | calls | begins | goes | leaves => exact .inr ⟨by simp, rfl, rfl⟩

theorem Step.shutdown_mono (h : Step tid u a σ τ) (hs : σ.shutdown = true) : τ.shutdown = true := by
  cases h with
  | shuts => rfl
  | _ => exact hs

/-- **Shutting down returns**: in a run that is fair to the thread and to who shuts the object down, each call that the
thread is in once `_shutdown` is set returns; and so does `a0_deadman_mtx_shutdown`, if no other call is made. -/
theorem shutdown_returns {r : Schedule (Step tid u)} {n : ℕ} (hinit : (r.state 0).Init) (huser : r.Fair .user)
    (hcloser : r.Fair .closer) (hn : (r.state n).shutdown = true) :
    (∃ m, n ≤ m ∧ (r.state m).op = .out) ∧
      ((∀ m, n ≤ m → (r.state m).op = .out → (r.state (m + 1)).op = .out) →
        ∃ m, n ≤ m ∧ (r.state m).close = .returned) := by
  have hgood : ∀ m, (r.state m).Good u := fun m =>
    r.invariant (fun _ _ _ hG hst => Step.good hst hG) ((good_isInvariant tid u).init _ hinit) m (Nat.zero_le m)
  have hshut : ∀ m, n ≤ m → (r.state m).shutdown = true :=
    r.invariant (fun _ _ _ hs hst => Step.shutdown_mono hst hs) hn
  obtain ⟨m, hm, hnot⟩ := (inCall_ends tid u).eventually (r := r) (n := n) fun m _ => by
    unfold Closing.helper
    split_ifs
    · exact hcloser
    · exact huser
  have hop : (r.state m).op = .out := by
    by_contra hne
    exact hnot ⟨hgood m, hshut m hm, hne⟩
  refine ⟨⟨m, hm, hop⟩, fun hstay => ?_⟩
  have hout : ∀ l, m ≤ l → (r.state l).op = .out := by
    intro l hl
    induction l, hl using Nat.le_induction with
    | base => exact hop
    | succ l hl ih => exact hstay l (Nat.le_trans hm hl) ih
  obtain ⟨l, hl, hnot⟩ := (left_ends tid u).eventually (r := r) (n := m) fun _ _ => hcloser
  refine ⟨l, Nat.le_trans hm hl, ?_⟩
  by_contra hne
  exact hnot ⟨hgood l, hshut l (Nat.le_trans hm hl), hout l hl, hne⟩

/-- A thread that is alone, and waits for somebody to lock. -/
def lone (pc : Pc Unit) (first : ℕ) (op : Op) (inop shutdown : Bool) (close : ClosePc)
    (pending : Bool) : Closing Unit :=
  ⟨⟨.fresh, fun _ => ⟨pc, fun _ => false, false, first, []⟩⟩, op, inop, shutdown, close, pending, 0⟩

theorem lone_ends (r : Option Result) (first : ℕ) (a : Turn) (ha : a ≠ .nobody) (τ : Closing Unit) :
    ¬ Step (fun _ => tidTwo false) () a (lone (.idle r) first .out false true .returned false) τ := by
  intro h
  cases h with
  | begins _ _ _ _ _ hop | leaves _ _ hop => cases hop
  | goes _ _ _ _ hidle => exact hidle r rfl
  | loads _ hc | rings _ hc => cases hc
  | stays | others | stirs | enters | calls | shuts => exact ha rfl

/-- Its call begins as the object is shut down. -/
theorem shutdown_returns_once : ∃ r : Schedule (Step (fun _ : Unit => tidTwo false) ()),
    (r.state 2).pending = true ∧ ∃ m, 2 ≤ m ∧ (r.state m).close = .returned := by
  let last := lone (.idle (some (.failed .eshutdown))) 1 .out false true .returned false
  let r : Schedule (Step (fun _ : Unit => tidTwo false) ()) := .const .nobody last (.stays last)
  let r := r.cons .closer (lone (.idle (some (.failed .eshutdown))) 1 .out false true .loading false) (.loads _ rfl)
  let r := r.cons .user (lone (.idle (some (.failed .eshutdown))) 1 .inside true true .loading true)
    (.leaves _ _ rfl rfl)
  let r := r.cons .user (lone (.waitShutdown .locked 0) 1 .inside true true .loading true)
    (.goes _ _ _ (.load _ (.waitIsShutdown .locked 0 rfl)) (by simp [lone]) (by simp [lone]) (by simp)
      (by simp [lone, Pc.isAsleep]) (by simp [lone]))
  let r := r.cons .user (lone .lockedLoad 1 .inside true true .loading true)
    (.goes _ _ _ (.load _ (.lockedNot rfl (.inl rfl))) (by simp [lone]) (by simp [lone]) (by simp)
      (by simp [lone, Pc.isAsleep]) (by simp [lone, Pc.loadsShutdown]))
  let r := r.cons .user (lone (.idle none) 0 (.entering .locked) true true .loading true)
    (.begins _ .locked none _ _ rfl rfl (.load _ (.callWaitLocked none rfl)) rfl)
  let r := r.cons .nobody (lone (.idle none) 0 (.entering .locked) true false .out false) (.shuts _ rfl)
  let r := r.cons .nobody (lone (.idle none) 0 .out false false .out false) (.enters _ .locked none rfl rfl (by simp))
  have hfair : ∀ a, a ≠ .nobody → r.Fair a := fun a ha =>
    .cons (.cons (.cons (.cons (.cons (.cons (.cons (Schedule.fair_const _ (lone_ends _ _ a ha)) _) _) _) _) _) _) _
  have hreturns := shutdown_returns (r := r) (n := 2) ⟨rfl, fun _ => rfl, rfl, rfl, rfl, rfl, rfl, rfl⟩
    (hfair .user (by simp)) (hfair .closer (by simp)) rfl
  refine ⟨r, rfl, hreturns.2 fun m hm hop => ?_⟩
  rcases m with _ | _ | _ | _ | _ | _ | m
  · omega
  · omega
  · cases hop
  · cases hop
  · cases hop
  · cases hop
  · cases m <;> rfl

end AlephZero.Deadman
