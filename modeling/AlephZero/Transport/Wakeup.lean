import AlephZero.Machine.Threads
import AlephZero.Transport.Announce
import AlephZero.Transport.Wait

/-!
# Wake-ups of the transport

Any number of threads that lock the transport, call it, wait for it in
`a0_transport_timedwait`, and shut connections down in `a0_transport_shutdown`; with
`a0_cnd_timedwait` and `a0_cnd_wake` of `mtx.c` step by step.

## The model

The owner of the mutex stores to the arena one store at a time; where a store counts up the
condition's counter, it goes on to the loop of `a0_cnd_wake`, and with its program behind
that. A waiter loads the counter, gives up the mutex, and sleeps if the counter is what it
was; a requeue with the present counter takes all sleepers off the queue, who then wait for
the mutex. The predicate of a wait is about the page and the connection's sequence number,
which nobody moves meanwhile. A wait may time out, and may end for no reason.

A thread may die whenever it is not in the middle of a call; if it has the mutex, it is free
then. While a waiter is on its way to sleep there are fewer than `2 ^ 32` broadcasts, and
sequence numbers do not run out.

## What is proved

* `Shared.Good`, `Pc.Good` — the invariant: who is on the way to sleep, and has the present
  counter, waits for what is not the case, or the owner of the mutex has yet to ring.
* **`wakeup_notLost`** — while nobody has the mutex, nobody sleeps whose predicate holds of what
  is committed, or whose connection is shut down.
-/

namespace AlephZero

open ByteMem StoreProg Prog

namespace Transport.Wakeup

/-- The predicates that are waited for. -/
inductive Pred where
  /-- `a0_transport_nonempty_pred`. -/
  | nonempty
  /-- `a0_transport_has_next_pred`, of a connection at this sequence number. -/
  | hasNext (seq : ℕ)
  deriving DecidableEq

/-- `a0_predicate_eval`, on a page. -/
def Pred.holds (s : TransportState) : Pred → Bool
  | .nonempty => !s.empty
  | .hasNext seq => !s.empty && seq < s.seqHigh

/-- Who calls `a0_cnd_timedwait`. -/
inductive Waiter where
  /-- The loop of `a0_transport_timedwait`. -/
  | wait (pred : Pred)
  /-- The loop of `a0_transport_shutdown`. -/
  | shutdown
  deriving DecidableEq

/-- What follows a call. -/
inductive Next where
  | returns
  /-- The mutex is released. -/
  | unlocks
  /-- The loop of `a0_transport_shutdown`. -/
  | shuts
  deriving DecidableEq

/-- Where a thread is. A number `n` is how often the bell had rung as the counter was loaded. -/
inductive Pc where
  | out
  /-- It waits for the mutex in `a0_transport_lock`. -/
  | locking
  /-- It has the mutex, and is in no call. -/
  | running
  | calling (next : Next)
  /-- In front of the loop of `a0_transport_timedwait`. -/
  | entering (pred : Pred)
  /-- At its head. -/
  | looping (pred : Pred)
  /-- `a0_cnd_timedwait`, before it loads the counter. -/
  | cndLoad (w : Waiter)
  | cndUnlock (w : Waiter) (initCnd n : ℕ)
  /-- Before `a0_ftx_wait_requeue_pi`. -/
  | cndWait (w : Waiter) (initCnd n : ℕ)
  | asleep (w : Waiter) (n : ℕ)
  /-- It waits for the mutex in `a0_cnd_timedwait`. -/
  | relock (w : Waiter) (timedOut : Bool)
  /-- In the loop, behind `a0_cnd_timedwait`. -/
  | woken (pred : Pred)
  /-- Behind the loop. -/
  | leaving
  /-- At the head of the loop of `a0_transport_shutdown`. -/
  | shutting
  | dead
  deriving DecidableEq

/-- Behind `a0_cnd_timedwait`. -/
def Waiter.resume : Waiter → Bool → Pc
  | .wait _, true => .leaving
  | .wait pred, false => .woken pred
  | .shutdown, _ => .shutting

/-- It has the mutex. -/
def Pc.holds : Pc → Bool
  | .running | .calling _ | .entering _ | .looping _ | .cndLoad _ | .cndUnlock _ _ _ | .woken _
  | .leaving | .shutting => true
  | _ => false

/-- The call that the owner of the mutex is in. -/
structure Running where
  /-- What the memory will be, store by store. -/
  rest : List Mem
  /-- What it will remember of the frame it has allocated. -/
  slot : Slot
  /-- In the loop of `a0_cnd_wake`, the counter it compares with. -/
  requeue : Option ℕ

/-- What the threads `ι` share, on the connections `κ`. -/
structure Shared (ι κ : Type) where
  mem : Mem
  owner : Option ι
  /-- The frame that the owner has allocated and not committed. -/
  slot : Slot
  call : Option Running
  /-- `_shutdown` and `_wait_cnt` of the connections. -/
  shutdown : κ → Bool
  waitCnt : κ → ℕ
  /-- Who sleeps on the condition. -/
  queue : ι → Bool
  /-- How often the counter has been counted up. -/
  rings : ℕ

variable {ι κ : Type}

namespace Shared

variable (s : Shared ι κ)

/-- The owner runs a program. -/
def begin (p : Prog Mem Slot) : Shared ι κ :=
  { s with call := some ⟨(p s.mem).trace, (p s.mem).value, none⟩ }

/-- It has done so. -/
def finish (slot : Slot) : Shared ι κ := { s with call := none, slot := slot }

def release : Shared ι κ := { s with owner := none, call := none, slot := none }

def dequeue [DecidableEq ι] (i : ι) : Shared ι κ := { s with queue := Function.update s.queue i false }

/-- `a0_cnd_broadcast`, as a program of the owner. -/
def ring : Prog Mem Slot := do
  cndBroadcast
  pure s.slot

end Shared

/-- The atomic steps of a thread. -/
inductive Act [DecidableEq ι] [DecidableEq κ] (conn : ι → κ) (i : ι) (σ : Threads ι (Shared ι κ) Pc) :
    Shared ι κ → Pc → Prop where
  | locks (hpc : σ.loc i = .out) : Act conn i σ σ.shared .locking
  /-- `a0_transport_lock` has the mutex. -/
  | acquires (hpc : σ.loc i = .locking) (howner : σ.shared.owner = none) :
      Act conn i σ (Shared.begin { σ.shared with owner := some i } (Call.prog .shared .lock σ.shared.slot))
        (.calling .returns)
  | calls (c : Call) (hpc : σ.loc i = .running) (hc : c.needsLock = true) (hfits : c.Fits)
      (hseq : c.isAlloc = true → (workingState σ.shared.mem).seqHigh + 2 < 2 ^ 64) :
      Act conn i σ (σ.shared.begin (c.prog .shared σ.shared.slot)) (.calling .returns)
  | unlocks (hpc : σ.loc i = .running) :
      Act conn i σ (σ.shared.begin (Call.prog .shared .unlock σ.shared.slot)) (.calling .unlocks)
  | stores (next : Next) (t : Mem) (rest : List Mem) (slot : Slot) (hpc : σ.loc i = .calling next)
      (hcall : σ.shared.call = some ⟨t :: rest, slot, none⟩) (hcnd : cnd t = cnd σ.shared.mem) :
      Act conn i σ { σ.shared with mem := t, call := some ⟨rest, slot, none⟩ } (.calling next)
  /-- `a0_atomic_add_fetch` of `a0_cnd_wake`. -/
  | rings (next : Next) (t : Mem) (rest : List Mem) (slot : Slot) (hpc : σ.loc i = .calling next)
      (hcall : σ.shared.call = some ⟨t :: rest, slot, none⟩) (hcnd : cnd t ≠ cnd σ.shared.mem) :
      Act conn i σ { σ.shared with
        mem := t, call := some ⟨rest, slot, some (cnd t)⟩, rings := σ.shared.rings + 1 } (.calling next)
  /-- `EAGAIN`: it loads the counter again. -/
  | requeueFails (next : Next) (rest : List Mem) (slot : Slot) (val : ℕ) (hpc : σ.loc i = .calling next)
      (hcall : σ.shared.call = some ⟨rest, slot, some val⟩) (hval : cnd σ.shared.mem ≠ val) :
      Act conn i σ { σ.shared with call := some ⟨rest, slot, some (cnd σ.shared.mem)⟩ } (.calling next)
  | requeues (next : Next) (rest : List Mem) (slot : Slot) (val : ℕ) (hpc : σ.loc i = .calling next)
      (hcall : σ.shared.call = some ⟨rest, slot, some val⟩) (hval : cnd σ.shared.mem = val) :
      Act conn i σ { σ.shared with call := some ⟨rest, slot, none⟩, queue := fun _ => false } (.calling next)
  | returns (slot : Slot) (hpc : σ.loc i = .calling .returns) (hcall : σ.shared.call = some ⟨[], slot, none⟩) :
      Act conn i σ (σ.shared.finish slot) .running
  | releases (slot : Slot) (hpc : σ.loc i = .calling .unlocks) (hcall : σ.shared.call = some ⟨[], slot, none⟩) :
      Act conn i σ σ.shared.release .out
  | shuts (slot : Slot) (hpc : σ.loc i = .calling .shuts) (hcall : σ.shared.call = some ⟨[], slot, none⟩) :
      Act conn i σ (σ.shared.finish slot) .shutting
  /-- `a0_transport_timedwait`, of a connection that is not shut down. -/
  | waits (pred : Pred) (hpc : σ.loc i = .running) (hshut : σ.shared.shutdown (conn i) = false) :
      Act conn i σ σ.shared (.entering pred)
  /-- It returns at once: the predicate holds, or its time is up. -/
  | satisfied (pred : Pred) (hpc : σ.loc i = .entering pred) : Act conn i σ σ.shared .running
  | enters (pred : Pred) (hpc : σ.loc i = .entering pred)
      (hpred : pred.holds (workingState σ.shared.mem) = false) :
      Act conn i σ { σ.shared with
        waitCnt := Function.update σ.shared.waitCnt (conn i) (σ.shared.waitCnt (conn i) + 1) } (.looping pred)
  | loops (pred : Pred) (hpc : σ.loc i = .looping pred) (hshut : σ.shared.shutdown (conn i) = false) :
      Act conn i σ σ.shared (.cndLoad (.wait pred))
  | loopEnds (pred : Pred) (hpc : σ.loc i = .looping pred) (hshut : σ.shared.shutdown (conn i) = true) :
      Act conn i σ σ.shared .leaving
  | cndLoads (w : Waiter) (hpc : σ.loc i = .cndLoad w) :
      Act conn i σ σ.shared (.cndUnlock w (cnd σ.shared.mem) σ.shared.rings)
  | cndUnlocks (w : Waiter) (initCnd n : ℕ) (hpc : σ.loc i = .cndUnlock w initCnd n) :
      Act conn i σ σ.shared.release (.cndWait w initCnd n)
  /-- `FUTEX_WAIT_REQUEUE_PI` -/
  | cndSleeps (w : Waiter) (initCnd n : ℕ) (hpc : σ.loc i = .cndWait w initCnd n)
      (hcnd : cnd σ.shared.mem = initCnd) (hrings : σ.shared.rings < n + 2 ^ 32) :
      Act conn i σ { σ.shared with queue := Function.update σ.shared.queue i true } (.asleep w n)
  /-- `EAGAIN` -/
  | cndChanged (w : Waiter) (initCnd n : ℕ) (hpc : σ.loc i = .cndWait w initCnd n)
      (hcnd : cnd σ.shared.mem ≠ initCnd) : Act conn i σ σ.shared (.relock w false)
  /-- It has been requeued. -/
  | wakes (w : Waiter) (n : ℕ) (hpc : σ.loc i = .asleep w n) (hqueue : σ.shared.queue i = false) :
      Act conn i σ σ.shared (.relock w false)
  /-- Its time is up, or it ends for no reason. -/
  | stirs (w : Waiter) (n : ℕ) (timedOut : Bool) (hpc : σ.loc i = .asleep w n) :
      Act conn i σ (σ.shared.dequeue i) (.relock w timedOut)
  | relocks (w : Waiter) (timedOut : Bool) (hpc : σ.loc i = .relock w timedOut)
      (howner : σ.shared.owner = none) :
      Act conn i σ { σ.shared with owner := some i } (w.resume timedOut)
  | wokenLoops (pred : Pred) (hpc : σ.loc i = .woken pred)
      (hpred : pred.holds (workingState σ.shared.mem) = false) : Act conn i σ σ.shared (.looping pred)
  /-- The predicate holds, or its time is up. -/
  | wokenEnds (pred : Pred) (hpc : σ.loc i = .woken pred) : Act conn i σ σ.shared .leaving
  /-- It counts itself off, and broadcasts. -/
  | leaves (hpc : σ.loc i = .leaving) :
      Act conn i σ (Shared.begin { σ.shared with
        waitCnt := Function.update σ.shared.waitCnt (conn i) (σ.shared.waitCnt (conn i) - 1) } σ.shared.ring)
        (.calling .returns)
  /-- `a0_transport_shutdown` -/
  | shutsDown (hpc : σ.loc i = .running) :
      Act conn i σ (Shared.begin { σ.shared with
        shutdown := Function.update σ.shared.shutdown (conn i) true } σ.shared.ring) (.calling .shuts)
  | shutWaits (hpc : σ.loc i = .shutting) (hcnt : σ.shared.waitCnt (conn i) ≠ 0) :
      Act conn i σ σ.shared (.cndLoad .shutdown)
  | shutEnds (hpc : σ.loc i = .shutting) (hcnt : σ.shared.waitCnt (conn i) = 0) :
      Act conn i σ σ.shared .running
  | ownerDies (howner : σ.shared.owner = some i) (hpc : ∀ next, σ.loc i ≠ .calling next) :
      Act conn i σ σ.shared.release .dead
  | otherDies (howner : σ.shared.owner ≠ some i) : Act conn i σ (σ.shared.dequeue i) .dead

/-- The runs on an arena of this size: at first all is quiet. -/
def runs [DecidableEq ι] [DecidableEq κ] (conn : ι → κ) (size : ℕ) : TransitionSystem (Threads ι (Shared ι κ) Pc) :=
  Threads.system
    (fun s loc => s = ⟨reached .shared [.init size], none, none, none, fun _ => false, fun _ => 0, fun _ => false, 0⟩ ∧
      ∀ i, loc i = .out) (Act conn)

/-- While nobody has the mutex, who sleeps waits for what is not the case: the predicate does not
hold of the committed page, and the connection is not shut down. -/
def NoLostWakeup (conn : ι → κ) (σ : Threads ι (Shared ι κ) Pc) : Prop :=
  σ.shared.owner = none → ∀ i pred n, σ.loc i = .asleep (.wait pred) n → σ.shared.queue i = true →
    pred.holds (committedState σ.shared.mem) = false ∧ σ.shared.shutdown (conn i) = false

/-! ### The invariant -/

/-- The owner of the mutex has yet to ring. -/
def Shared.Owes (s : Shared ι κ) : Prop := ∃ c, s.call = some c ∧ ∃ t ∈ c.rest, cnd t ≠ cnd s.mem

/-- The owner of the mutex has rung, and is waking. -/
def Shared.Waking (s : Shared ι κ) : Prop := ∃ c, s.call = some c ∧ c.requeue ≠ none

/-- There is nothing to wake up for. -/
def Shared.Unmet (s : Shared ι κ) (k : κ) (pred : Pred) : Prop :=
  pred.holds (committedState s.mem) = false ∧ s.shutdown k = false

/-- The memory is in order, but for a call that has begun, which announces what it changes. -/
structure Shared.Good (base : ℕ) (s : Shared ι κ) : Prop where
  word : cnd s.mem = (base + s.rings) % 2 ^ 32
  free : s.owner = none → s.call = none
  ready : s.call = none → ∃ n C X q, Ready s.mem n C X q ∧ Outstanding s.slot X
  calling : ∀ c, s.call = some c → Announced bell s.mem c.rest ∧
    ∃ n C X q, Ready (c.rest.getLastD s.mem) n C X q ∧ Outstanding c.slot X

/-- How often the bell had rung as a thread on its way to sleep loaded the counter. -/
def Pc.rings : Pc → Option ℕ
  | .cndUnlock _ _ n | .cndWait _ _ n | .asleep _ n => some n
  | _ => none

/-- The counter it has loaded. -/
def Pc.initCnd : Pc → Option (ℕ × ℕ)
  | .cndUnlock _ initCnd n | .cndWait _ initCnd n => some (initCnd, n)
  | _ => none

/-- What it waits for. -/
def Pc.pred : Pc → Option (Pred × ℕ)
  | .cndUnlock (.wait pred) _ n | .cndWait (.wait pred) _ n | .asleep (.wait pred) n => some (pred, n)
  | _ => none

def Pc.isCalling : Pc → Bool
  | .calling _ => true
  | _ => false

/-- Who is on the way to sleep, and would sleep if it got there now, waits for what is not the
case, or will be woken. -/
structure Pc.Good (conn : ι → κ) (base : ℕ) (i : ι) (s : Shared ι κ) (pc : Pc) : Prop where
  owner : pc.holds = true ↔ s.owner = some i
  call : pc.holds = true → s.call.isSome = pc.isCalling
  rings : ∀ n, pc.rings = some n → n ≤ s.rings
  initCnd : ∀ initCnd n, pc.initCnd = some (initCnd, n) → initCnd = (base + n) % 2 ^ 32
  queue : s.queue i = true → ∃ w n, pc = .asleep w n ∧ (n = s.rings ∨ s.Waking)
  pred : ∀ pred n, pc.pred = some (pred, n) → n = s.rings → s.Unmet (conn i) pred ∨ s.Owes
  looping : ∀ pred, pc = .looping pred → pred.holds (committedState s.mem) = false
  cndLoad : ∀ pred, pc = .cndLoad (.wait pred) → s.Unmet (conn i) pred

/-- What the steps of others leave of what concerns a thread. -/
structure Shared.Rely (conn : ι → κ) (i : ι) (s s' : Shared ι κ) : Prop where
  owner : s'.owner = some i ↔ s.owner = some i
  rings : s.rings ≤ s'.rings
  queue : s'.queue i = true → s.queue i = true
  waking : s'.queue i = true → (s.Waking → s'.Waking) ∧ (s.rings = s'.rings ∨ s'.Waking)
  pred : ∀ pred, s.rings = s'.rings → s.Unmet (conn i) pred ∨ s.Owes → s'.Unmet (conn i) pred ∨ s'.Owes
  own : s.owner = some i → s'.call = s.call ∧ s'.mem = s.mem ∧ s'.shutdown = s.shutdown

variable {conn : ι → κ} {base : ℕ} {i j : ι} {s s' : Shared ι κ} {pc : Pc}
  {σ : Threads ι (Shared ι κ) Pc}

theorem Pc.rings_of_pred {pred : Pred} {n : ℕ} (h : pc.pred = some (pred, n)) : pc.rings = some n := by
  revert h
  fun_cases Pc.pred <;> simp [Pc.rings]

theorem Pc.Good.rely (h : pc.Good conn base i s) (hs : s.Rely conn i s') : pc.Good conn base i s' where
  owner := h.owner.trans hs.owner.symm
  call ho := by
    rw [(hs.own (h.owner.mp ho)).1]
    exact h.call ho
  rings n hn := (h.rings n hn).trans hs.rings
  initCnd := h.initCnd
  queue hq := by
    obtain ⟨w, n, hpc, hn⟩ := h.queue (hs.queue hq)
    obtain ⟨hwake, hrings⟩ := hs.waking hq
    refine ⟨w, n, hpc, ?_⟩
    rcases hn with rfl | hn
    · exact hrings
    · exact .inr (hwake hn)
  pred pred n hp hn := by
    have hle : n ≤ s.rings := h.rings n (Pc.rings_of_pred hp)
    have hrings : s.rings = s'.rings := le_antisymm hs.rings (hn ▸ hle)
    exact hs.pred pred hrings (h.pred pred n hp (hn.trans hrings.symm))
  looping pred hpc := by
    have hown := hs.own (h.owner.mp (by rw [hpc]; rfl))
    rw [hown.2.1]
    exact h.looping pred hpc
  cndLoad pred hpc := by
    have hown := hs.own (h.owner.mp (by rw [hpc]; rfl))
    rw [Shared.Unmet, hown.2.1, hown.2.2]
    exact h.cndLoad pred hpc

/-! ### The memory -/

section Memory

variable {m : Mem} {n q : ℕ} {C X : List Frame}

/-- What holds of the committed page holds of the working page. -/
theorem Pred.holds_committed {pred : Pred} (h : Ready m n C X q) (hw : pred.holds (workingState m) = false) :
    pred.holds (committedState m) = false := by
  obtain ⟨-, i, c, w, hv, hc, hcq, hh, hwq, he⟩ := h
  rw [hv.workingState_eq] at hw
  rw [hv.committedView.state]
  by_cases hX : X = []
  · rwa [he hX] at hw
  · have hempty : w.empty = false := by
      rw [Bool.eq_false_iff, ne_eq, hh.page.empty_iff]
      simp [hX]
    cases pred with
    | nonempty => simp [holds, hempty] at hw
    | hasNext seq =>
      simp only [holds, hempty, Bool.not_false, Bool.true_and, decide_eq_false_iff_not, not_lt] at hw
      have hle : c.seqHigh ≤ seq := by omega
      simp [holds, hle]

/-- A call leaves the memory in order. -/
theorem call_ready {c : Call} {slot : Slot} (h : Ready m n C X q) (hs : Outstanding slot X) (hfits : c.Fits)
    (hq : q + X.length + c.isAlloc.toNat + 1 < 2 ^ 64) :
    ∃ n' C' X' q', Ready ((c.prog .shared slot).exec m) n' C' X' q' ∧
      Outstanding ((c.prog .shared slot).eval m) X' := by
  have hp : c.Post .shared m n C X q slot ((c.prog .shared slot).eval m) ((c.prog .shared slot).exec m) :=
    post_of_wpc (Call.prog_wpc (by decide) h hs hfits hq)
  obtain ⟨n', C', X', q', hr, hout, -⟩ := Call.Post.ready h hs hp
  exact ⟨n', C', X', q', hr, hout⟩

instance (s : Shared ι κ) : Traced s.ring := by
  unfold Shared.ring
  infer_instance

theorem announces_ring : s.ring.Announces bell m := announces_bind rings_cndBroadcast.announces (announces_pure _)

/-- A program begins that announces what it does, and leaves the memory in order. -/
theorem Shared.Good.begin {p : Prog Mem Slot} [hp : Traced p] (h : s.Good base) (howner : s.owner ≠ none)
    (ha : p.Announces bell s.mem)
    (hr : ∃ n C X q, Ready (p.exec s.mem) n C X q ∧ Outstanding (p.eval s.mem) X) : (s.begin p).Good base where
  word := h.word
  free ho := absurd ho howner
  ready := nofun
  calling c hc := by
    cases hc
    exact ⟨ha, hp.last s.mem ▸ hr⟩

/-- A call begins. -/
theorem Shared.Good.call {c : Call} (h : s.Good base) (howner : s.owner ≠ none) (hcall : s.call = none)
    (hinit : ∀ size, c ≠ .init size) (hfits : c.Fits)
    (hseq : c.isAlloc = true → (workingState s.mem).seqHigh + 2 < 2 ^ 64) :
    (s.begin (c.prog .shared s.slot)).Good base := by
  obtain ⟨n, C, X, q, hr, hout⟩ := h.ready hcall
  have hq : q + X.length + c.isAlloc.toNat + 1 < 2 ^ 64 := by
    cases hc : c.isAlloc with
    | true =>
      have hlt := hseq hc
      rwa [hr.seqHigh_eq] at hlt
    | false =>
      have hlt := hr.seqHigh_lt
      simpa using hlt
  have := traced_prog hinit s.slot
  exact h.begin howner (Call.announces hinit hr hout hfits hq) (call_ready hr hout hfits hq)

/-- A broadcast begins. -/
theorem Shared.Good.ring (h : s.Good base) (howner : s.owner ≠ none) (hcall : s.call = none) :
    (s.begin s.ring).Good base := by
  obtain ⟨n, C, X, q, hr, hout⟩ := h.ready hcall
  exact h.begin howner announces_ring ⟨n, C, X, q, post_of_wpc (cndBroadcast_ready hr), hout⟩

/-- The mutex is free after a call. -/
theorem Shared.Good.release (h : s.Good base) (hr : ∃ n C X q, Ready s.mem n C X q) : s.release.Good base where
  word := h.word
  free _ := rfl
  ready _ := by
    obtain ⟨n, C, X, q, hr⟩ := hr
    exact ⟨n, C, X, q, hr, outstanding_none⟩
  calling := nofun

end Memory

/-! ### What the others see -/

/-- Nothing that concerns others has changed. -/
theorem Shared.Rely.of_same (hmem : s'.mem = s.mem) (hcall : s'.call = s.call) (hshut : s'.shutdown = s.shutdown)
    (hrings : s'.rings = s.rings) (howner : s'.owner = some j ↔ s.owner = some j)
    (hqueue : s'.queue j = true → s.queue j = true) : s.Rely conn j s' where
  owner := howner
  rings := hrings.ge
  queue := hqueue
  waking _ := ⟨fun h => by rwa [Waking, hcall], .inl hrings.symm⟩
  pred pred _ h := by rwa [Unmet, Owes, hmem, hshut, hcall]
  own _ := ⟨hcall, hmem, hshut⟩

/-- The step of an owner, who is another. -/
theorem Shared.Rely.of_other (hrings : s.rings ≤ s'.rings) (hqueue : s'.queue j = true → s.queue j = true)
    (hwaking : s'.queue j = true → (s.Waking → s'.Waking) ∧ (s.rings = s'.rings ∨ s'.Waking))
    (hpred : ∀ pred, s.rings = s'.rings → s.Unmet (conn j) pred ∨ s.Owes → s'.Unmet (conn j) pred ∨ s'.Owes)
    (howner : s.owner ≠ some j) (howner' : s'.owner ≠ some j) : s.Rely conn j s' where
  owner := ⟨fun h => absurd h howner', fun h => absurd h howner⟩
  rings := hrings
  queue := hqueue
  waking := hwaking
  pred := hpred
  own h := absurd h howner

/-- Nothing was due, and but for what the owner may begin nothing has changed. -/
theorem Shared.Rely.of_idle (hw : ¬ s.Waking) (ho : ¬ s.Owes) (hmem : s'.mem = s.mem)
    (hshut : s'.shutdown = s.shutdown) (hrings : s'.rings = s.rings) (hqueue : s'.queue = s.queue)
    (howner : s.owner ≠ some j) (howner' : s'.owner ≠ some j) : s.Rely conn j s' := by
  refine .of_other hrings.ge (fun h => by rwa [hqueue] at h) (fun _ => ⟨fun h => absurd h hw, .inl hrings.symm⟩)
    (fun pred _ h => .inl ?_) howner howner'
  have hunmet := h.resolve_right ho
  rwa [Unmet, hmem, hshut]

theorem Shared.not_waking (h : s.call = none) : ¬ s.Waking := by
  rintro ⟨c, hc, -⟩
  cases h.symm.trans hc

theorem Shared.not_owes (h : s.call = none) : ¬ s.Owes := by
  rintro ⟨c, hc, -⟩
  cases h.symm.trans hc

theorem Shared.not_waking_of_requeue {rest : List Mem} {slot : Slot} (h : s.call = some ⟨rest, slot, none⟩) :
    ¬ s.Waking := by
  rintro ⟨c, hc, hne⟩
  cases h.symm.trans hc
  exact hne rfl

theorem Shared.not_owes_of_rest {slot : Slot} {requeue : Option ℕ} (h : s.call = some ⟨[], slot, requeue⟩) :
    ¬ s.Owes := by
  rintro ⟨c, hc, t, ht, -⟩
  cases h.symm.trans hc
  cases ht

/-- A broadcast that begins has yet to ring. -/
theorem Shared.owes_ring : (s.begin s.ring).Owes := by
  obtain ⟨-, t, ht, hne⟩ := rings_cndBroadcast (m := s.mem)
  exact ⟨_, rfl, t, List.mem_append_left _ ht, hne⟩

/-! ### What is shared -/

section Steps

theorem Pc.isCalling_eq_false (h : ∀ next, pc ≠ .calling next) : pc.isCalling = false := by
  cases pc with
  | calling next => exact absurd rfl (h next)
  | _ => rfl

theorem Pc.Good.owner_ne_none (h : pc.Good conn base i s) (hpc : pc.holds = true) : s.owner ≠ none := by
  rw [h.owner.mp hpc]
  exact nofun

theorem Pc.Good.call_eq_none (h : pc.Good conn base i s) (hpc : pc.holds = true) (hcall : pc.isCalling = false) :
    s.call = none := by
  have hsome := h.call hpc
  rw [hcall] at hsome
  exact Option.isSome_eq_false_iff.mp hsome |> Option.isNone_iff_eq_none.mp

theorem Pc.rings_of_initCnd {initCnd n : ℕ} (h : pc.initCnd = some (initCnd, n)) : pc.rings = some n := by
  revert h
  fun_cases Pc.initCnd <;> simp [Pc.rings]

/-- A thread that is not on its way to sleep. -/
theorem Pc.Good.of_awake (hrings : pc.rings = none) (howner : pc.holds = true ↔ s.owner = some i)
    (hcall : pc.holds = true → s.call.isSome = pc.isCalling) (hqueue : s.queue i = false)
    (hloop : ∀ pred, pc = .looping pred → pred.holds (committedState s.mem) = false)
    (hload : ∀ pred, pc = .cndLoad (.wait pred) → s.Unmet (conn i) pred) : pc.Good conn base i s where
  owner := howner
  call := hcall
  rings := by
    rw [hrings]
    nofun
  initCnd initCnd n hn := by
    cases hrings.symm.trans (Pc.rings_of_initCnd hn)
  queue hq := by
    rw [hqueue] at hq
    cases hq
  pred pred n hn := by
    cases hrings.symm.trans (Pc.rings_of_pred hn)
  looping := hloop
  cndLoad := hload

/-- It has the mutex. -/
theorem Pc.Good.of_holds (hrings : pc.rings = none) (hpc : pc.holds = true) (howner : s.owner = some i)
    (hcall : s.call.isSome = pc.isCalling) (hqueue : s.queue i = false)
    (hloop : ∀ pred, pc = .looping pred → pred.holds (committedState s.mem) = false := by nofun)
    (hload : ∀ pred, pc = .cndLoad (.wait pred) → s.Unmet (conn i) pred := by nofun) : pc.Good conn base i s :=
  .of_awake hrings ⟨fun _ => howner, fun _ => hpc⟩ (fun _ => hcall) hqueue hloop hload

/-- It does not. -/
theorem Pc.Good.of_not_holds (hrings : pc.rings = none) (hpc : pc.holds = false) (howner : s.owner ≠ some i)
    (hqueue : s.queue i = false) : pc.Good conn base i s := by
  have hnot : pc.holds ≠ true := Bool.eq_false_iff.mp hpc
  refine .of_awake hrings ⟨fun h => absurd h hnot, fun h => absurd h howner⟩ (fun h => absurd h hnot) hqueue ?_ ?_
  · rintro pred rfl
    cases hpc
  · rintro pred rfl
    cases hpc

theorem Pc.Good.queue_eq_false (h : pc.Good conn base i s) (hpc : ∀ w n, pc ≠ .asleep w n) : s.queue i = false := by
  rw [Bool.eq_false_iff]
  intro hq
  obtain ⟨w, n, hsleep, -⟩ := h.queue hq
  exact hpc w n hsleep

theorem Pc.Good.owner_ne (h : pc.Good conn base i s) (hpc : pc.holds = false) : s.owner ≠ some i := fun ho => by
  cases hpc.symm.trans (h.owner.mpr ho)

variable [DecidableEq ι]

theorem Shared.dequeue_self : (s.dequeue i).queue i = false := Function.update_self ..

theorem Shared.dequeue_of_ne (hij : j ≠ i) : (s.dequeue i).queue j = s.queue j := Function.update_of_ne hij ..

variable [DecidableEq κ]

/-- What a step does keeps what is shared in order. -/
theorem Act.shared_good (hG : σ.shared.Good base) (hI : (σ.loc i).Good conn base i σ.shared)
    (h : Act conn i σ s pc) : s.Good base := by
  cases h with
  | acquires hpc howner =>
    have hG' : Shared.Good base { σ.shared with owner := some i } := ⟨hG.word, nofun, hG.ready, hG.calling⟩
    exact hG'.call nofun (hG.free howner) nofun trivial nofun
  | calls c hpc hc hfits hseq =>
    refine hG.call (hI.owner_ne_none (by rw [hpc]; rfl)) (hI.call_eq_none (by rw [hpc]; rfl) (by rw [hpc]; rfl))
      (fun size h => ?_) hfits hseq
    rw [h] at hc
    cases hc
  | unlocks hpc =>
    exact hG.call (hI.owner_ne_none (by rw [hpc]; rfl)) (hI.call_eq_none (by rw [hpc]; rfl) (by rw [hpc]; rfl))
      nofun trivial nofun
  | stores next t rest slot hpc hcall hcnd =>
    obtain ⟨ha, hr⟩ := hG.calling _ hcall
    refine ⟨hcnd.trans hG.word, fun ho => absurd ho (hI.owner_ne_none (by rw [hpc]; rfl)), nofun, fun c hc => ?_⟩
    cases hc
    rw [List.getLastD_cons] at hr
    exact ⟨ha.step.1, hr⟩
  | rings next t rest slot hpc hcall hcnd =>
    obtain ⟨ha, hr⟩ := hG.calling _ hcall
    refine ⟨?_, fun ho => absurd ho (hI.owner_ne_none (by rw [hpc]; rfl)), nofun, fun c hc => ?_⟩
    · have hsucc : cnd t = (cnd σ.shared.mem + 1) % 2 ^ 32 := ha.1.resolve_left hcnd
      rw [hsucc, hG.word, Nat.mod_add_mod, Nat.add_assoc]
    · cases hc
      rw [List.getLastD_cons] at hr
      exact ⟨ha.step.1, hr⟩
  | requeueFails next rest slot val hpc hcall hval =>
    have hr := hG.calling _ hcall
    refine ⟨hG.word, fun ho => absurd ho (hI.owner_ne_none (by rw [hpc]; rfl)), nofun, fun c hc => ?_⟩
    cases hc
    exact hr
  | requeues next rest slot val hpc hcall hval =>
    have hr := hG.calling _ hcall
    refine ⟨hG.word, fun ho => absurd ho (hI.owner_ne_none (by rw [hpc]; rfl)), nofun, fun c hc => ?_⟩
    cases hc
    exact hr
  | returns slot hpc hcall => exact ⟨hG.word, fun _ => rfl, fun _ => (hG.calling _ hcall).2, nofun⟩
  | releases slot hpc hcall =>
    obtain ⟨n, C, X, q, hr, -⟩ := (hG.calling _ hcall).2
    exact hG.release ⟨n, C, X, q, hr⟩
  | shuts slot hpc hcall => exact ⟨hG.word, fun _ => rfl, fun _ => (hG.calling _ hcall).2, nofun⟩
  | enters pred hpc hpred => exact ⟨hG.word, hG.free, hG.ready, hG.calling⟩
  | cndUnlocks w initCnd n hpc =>
    obtain ⟨n, C, X, q, hr, -⟩ := hG.ready (hI.call_eq_none (by rw [hpc]; rfl) (by rw [hpc]; rfl))
    exact hG.release ⟨n, C, X, q, hr⟩
  | cndSleeps w initCnd n hpc hcnd hrings => exact ⟨hG.word, hG.free, hG.ready, hG.calling⟩
  | stirs w n timedOut hpc => exact ⟨hG.word, hG.free, hG.ready, hG.calling⟩
  | relocks w timedOut hpc howner => exact ⟨hG.word, nofun, hG.ready, hG.calling⟩
  | leaves hpc =>
    have hG' : Shared.Good base { σ.shared with
        waitCnt := Function.update σ.shared.waitCnt (conn i) (σ.shared.waitCnt (conn i) - 1) } :=
      ⟨hG.word, hG.free, hG.ready, hG.calling⟩
    exact hG'.ring (hI.owner_ne_none (by rw [hpc]; rfl)) (hI.call_eq_none (by rw [hpc]; rfl) (by rw [hpc]; rfl))
  | shutsDown hpc =>
    have hG' : Shared.Good base { σ.shared with shutdown := Function.update σ.shared.shutdown (conn i) true } :=
      ⟨hG.word, hG.free, hG.ready, hG.calling⟩
    exact hG'.ring (hI.owner_ne_none (by rw [hpc]; rfl)) (hI.call_eq_none (by rw [hpc]; rfl) (by rw [hpc]; rfl))
  | ownerDies howner hpc =>
    have hcall := hI.call_eq_none (hI.owner.mpr howner) (Pc.isCalling_eq_false hpc)
    obtain ⟨n, C, X, q, hr, -⟩ := hG.ready hcall
    exact hG.release ⟨n, C, X, q, hr⟩
  | otherDies howner => exact ⟨hG.word, hG.free, hG.ready, hG.calling⟩
  | _ => exact hG

/-- What a step leaves of what concerns the others. -/
theorem Act.rely (hG : σ.shared.Good base) (hI : (σ.loc i).Good conn base i σ.shared)
    (h : Act conn i σ s pc) (hij : j ≠ i) : σ.shared.Rely conn j s := by
  have hother {o : Option ι} (ho : o = some i) : o ≠ some j := fun h => hij (Option.some.inj (h.symm.trans ho))
  cases h with
  | acquires hpc howner =>
    have hcall := hG.free howner
    exact .of_idle (Shared.not_waking hcall) (Shared.not_owes hcall) rfl rfl rfl rfl (by rw [howner]; nofun)
      (hother rfl)
  | calls c hpc hc hfits hseq =>
    have howner := hI.owner.mp (by rw [hpc]; rfl)
    have hcall := hI.call_eq_none (by rw [hpc]; rfl) (by rw [hpc]; rfl)
    exact .of_idle (Shared.not_waking hcall) (Shared.not_owes hcall) rfl rfl rfl rfl (hother howner) (hother howner)
  | unlocks hpc =>
    have howner := hI.owner.mp (by rw [hpc]; rfl)
    have hcall := hI.call_eq_none (by rw [hpc]; rfl) (by rw [hpc]; rfl)
    exact .of_idle (Shared.not_waking hcall) (Shared.not_owes hcall) rfl rfl rfl rfl (hother howner) (hother howner)
  | stores next t rest slot hpc hcall hcnd =>
    have howner := hI.owner.mp (by rw [hpc]; rfl)
    obtain ⟨-, hstep⟩ := (hG.calling _ hcall).1.step
    obtain ⟨hne, -⟩ | ⟨-, hshown⟩ := hstep
    · exact absurd hcnd hne
    · refine .of_other le_rfl id (fun _ => ⟨fun h => ?_, .inl rfl⟩) (fun pred _ h => ?_) (hother howner) (hother howner)
      · exact absurd h (Shared.not_waking_of_requeue hcall)
      · rcases hshown with hshown | ⟨u, hu, hne⟩
        · rcases h with ⟨hpred, hshut⟩ | ⟨c, hc, u, hu, hne⟩
          · left
            exact ⟨(congrArg pred.holds hshown).trans hpred, hshut⟩
          · right
            cases hcall.symm.trans hc
            rcases List.mem_cons.mp hu with rfl | hu
            · exact absurd hcnd hne
            · exact ⟨_, rfl, u, hu, hcnd ▸ hne⟩
        · exact .inr ⟨_, rfl, u, hu, hne⟩
  | rings next t rest slot hpc hcall hcnd =>
    have howner := hI.owner.mp (by rw [hpc]; rfl)
    have hwaking : Shared.Waking { σ.shared with
        mem := t, call := some ⟨rest, slot, some (cnd t)⟩, rings := σ.shared.rings + 1 } := ⟨_, rfl, nofun⟩
    refine .of_other (Nat.le_succ _) id (fun _ => ⟨fun _ => hwaking, .inr hwaking⟩) (fun pred h _ => ?_)
      (hother howner) (hother howner)
    exact absurd h (Nat.ne_of_lt (Nat.lt_succ_self _))
  | requeueFails next rest slot val hpc hcall hval =>
    have howner := hI.owner.mp (by rw [hpc]; rfl)
    refine .of_other le_rfl id (fun _ => ⟨fun _ => ⟨_, rfl, nofun⟩, .inl rfl⟩) (fun pred _ h => ?_)
      (hother howner) (hother howner)
    refine h.imp_right fun ⟨c, hc, ho⟩ => ?_
    cases hcall.symm.trans hc
    exact ⟨_, rfl, ho⟩
  | requeues next rest slot val hpc hcall hval =>
    have howner := hI.owner.mp (by rw [hpc]; rfl)
    refine .of_other le_rfl nofun nofun (fun pred _ h => ?_) (hother howner) (hother howner)
    refine h.imp_right fun ⟨c, hc, ho⟩ => ?_
    cases hcall.symm.trans hc
    exact ⟨_, rfl, ho⟩
  | returns slot hpc hcall | shuts slot hpc hcall =>
    have howner := hI.owner.mp (by rw [hpc]; rfl)
    exact .of_idle (Shared.not_waking_of_requeue hcall) (Shared.not_owes_of_rest hcall) rfl rfl rfl rfl
      (hother howner) (hother howner)
  | releases slot hpc hcall =>
    have howner := hI.owner.mp (by rw [hpc]; rfl)
    exact .of_idle (Shared.not_waking_of_requeue hcall) (Shared.not_owes_of_rest hcall) rfl rfl rfl rfl
      (hother howner) nofun
  | cndUnlocks w initCnd n hpc =>
    have howner := hI.owner.mp (by rw [hpc]; rfl)
    have hcall := hI.call_eq_none (by rw [hpc]; rfl) (by rw [hpc]; rfl)
    exact .of_idle (Shared.not_waking hcall) (Shared.not_owes hcall) rfl rfl rfl rfl (hother howner) nofun
  | cndSleeps w initCnd n hpc hcnd hrings =>
    exact .of_same rfl rfl rfl rfl Iff.rfl fun h => (Function.update_of_ne hij true σ.shared.queue).symm.trans h
  | stirs w n timedOut hpc =>
    exact .of_same rfl rfl rfl rfl Iff.rfl fun h => (Shared.dequeue_of_ne hij).symm.trans h
  | otherDies howner =>
    exact .of_same rfl rfl rfl rfl Iff.rfl fun h => (Shared.dequeue_of_ne hij).symm.trans h
  | relocks w timedOut hpc howner =>
    refine .of_same rfl rfl rfl rfl ⟨fun h => absurd h (hother rfl), fun h => ?_⟩ id
    rw [howner] at h
    cases h
  | leaves hpc =>
    have howner := hI.owner.mp (by rw [hpc]; rfl)
    have hcall := hI.call_eq_none (by rw [hpc]; rfl) (by rw [hpc]; rfl)
    exact .of_idle (Shared.not_waking hcall) (Shared.not_owes hcall) rfl rfl rfl rfl (hother howner) (hother howner)
  | shutsDown hpc =>
    have howner := hI.owner.mp (by rw [hpc]; rfl)
    have hcall := hI.call_eq_none (by rw [hpc]; rfl) (by rw [hpc]; rfl)
    refine .of_other le_rfl id (fun _ => ⟨fun h => ?_, .inl rfl⟩) (fun pred _ _ => .inr Shared.owes_ring)
      (hother howner) (hother howner)
    exact absurd h (Shared.not_waking hcall)
  | ownerDies howner hpc =>
    have hcall := hI.call_eq_none (hI.owner.mpr howner) (Pc.isCalling_eq_false hpc)
    exact .of_idle (Shared.not_waking hcall) (Shared.not_owes hcall) rfl rfl rfl rfl (hother howner) nofun
  | _ => exact .of_same rfl rfl rfl rfl Iff.rfl id

/-- Where a thread is is good for it after its own step. -/
theorem Act.good (hG : σ.shared.Good base) (hI : (σ.loc i).Good conn base i σ.shared)
    (h : Act conn i σ s pc) : pc.Good conn base i s := by
  cases h with
  | locks hpc | cndChanged w initCnd n hpc hcnd =>
    rw [hpc] at hI
    exact .of_not_holds rfl rfl (hI.owner_ne rfl) (hI.queue_eq_false nofun)
  | acquires hpc howner =>
    rw [hpc] at hI
    exact .of_holds rfl rfl rfl rfl (hI.queue_eq_false nofun)
  | calls c hpc | unlocks hpc | stores next t rest slot hpc | rings next t rest slot hpc
  | requeueFails next rest slot val hpc | returns slot hpc | shuts slot hpc | leaves hpc | shutsDown hpc =>
    rw [hpc] at hI
    exact .of_holds rfl rfl (hI.owner.mp rfl) rfl (hI.queue_eq_false nofun)
  | requeues next rest slot val hpc =>
    rw [hpc] at hI
    exact .of_holds rfl rfl (hI.owner.mp rfl) rfl rfl
  | waits pred hpc | satisfied pred hpc | loopEnds pred hpc | wokenEnds pred hpc | shutWaits hpc | shutEnds hpc =>
    rw [hpc] at hI
    exact .of_holds rfl rfl (hI.owner.mp rfl) (hI.call rfl) (hI.queue_eq_false nofun)
  | enters pred hpc hpred | wokenLoops pred hpc hpred =>
    rw [hpc] at hI
    refine .of_holds rfl rfl (hI.owner.mp rfl) (hI.call rfl) (hI.queue_eq_false nofun) (fun pred' hp => ?_)
    cases hp
    obtain ⟨n, C, X, q, hr, -⟩ := hG.ready (hI.call_eq_none rfl rfl)
    exact Pred.holds_committed hr hpred
  | loops pred hpc hshut =>
    rw [hpc] at hI
    refine .of_holds rfl rfl (hI.owner.mp rfl) (hI.call rfl) (hI.queue_eq_false nofun) nofun (fun pred' hp => ?_)
    cases hp
    exact ⟨hI.looping pred rfl, hshut⟩
  | releases slot hpc =>
    rw [hpc] at hI
    exact .of_not_holds rfl rfl nofun (hI.queue_eq_false nofun)
  | cndLoads w hpc =>
    rw [hpc] at hI
    refine ⟨hI.owner, fun _ => hI.call rfl, fun n hn => ?_, fun initCnd n hn => ?_, fun hq => ?_, fun pred n hp _ => ?_,
      nofun, nofun⟩
    · cases hn
      exact le_rfl
    · cases hn
      exact hG.word
    · rw [hI.queue_eq_false nofun] at hq
      cases hq
    · cases w with
      | wait pred' =>
        cases hp
        exact .inl (hI.cndLoad pred rfl)
      | shutdown => cases hp
  | cndUnlocks w initCnd n hpc =>
    rw [hpc] at hI
    have hcall := hI.call_eq_none rfl rfl
    refine ⟨⟨nofun, nofun⟩, nofun, hI.rings, hI.initCnd, fun hq => ?_, fun pred n hp hn => ?_, nofun, nofun⟩
    · rw [Shared.release, hI.queue_eq_false nofun] at hq
      cases hq
    · have hdue : σ.shared.Unmet (conn i) pred ∨ σ.shared.Owes := by
        cases w with
        | wait pred' => exact hI.pred pred n hp hn
        | shutdown => cases hp
      exact .inl (hdue.resolve_right (Shared.not_owes hcall))
  | cndSleeps w initCnd n hpc hcnd hrings =>
    rw [hpc] at hI
    have hle := hI.rings n rfl
    have hword := (hI.initCnd initCnd n rfl).symm.trans (hcnd.symm.trans hG.word)
    refine ⟨hI.owner, nofun, hI.rings, nofun, fun _ => ⟨w, n, rfl, .inl ?_⟩, fun pred n hp hn => ?_, nofun, nofun⟩
    · show n = σ.shared.rings
      omega
    · cases w with
      | wait pred' => exact hI.pred pred n hp hn
      | shutdown => cases hp
  | wakes w n hpc hqueue =>
    rw [hpc] at hI
    exact .of_not_holds rfl rfl (hI.owner_ne rfl) hqueue
  | stirs w n timedOut hpc =>
    rw [hpc] at hI
    exact .of_not_holds rfl rfl (hI.owner_ne rfl) Shared.dequeue_self
  | relocks w timedOut hpc howner =>
    rw [hpc] at hI
    have hqueue := hI.queue_eq_false nofun
    have hcall : σ.shared.call.isSome = false := by
      rw [hG.free howner]
      rfl
    cases w with
    | wait pred => cases timedOut <;> exact .of_holds rfl rfl rfl hcall hqueue
    | shutdown => exact .of_holds rfl rfl rfl hcall hqueue
  | ownerDies howner hpc =>
    refine .of_not_holds rfl rfl nofun (hI.queue_eq_false fun w n hsleep => ?_)
    cases hsleep ▸ hI.owner.mpr howner
  | otherDies howner => exact .of_not_holds rfl rfl howner Shared.dequeue_self

/-- The invariant, when the condition's counter begins at `base`. -/
theorem stable {init : Shared ι κ → (ι → Pc) → Prop} (hinit : ∀ s loc, init s loc →
      Shared.Good base s ∧ s.owner = none ∧ (∀ i, s.queue i = false) ∧ ∀ i, loc i = .out) :
    Threads.Stable init (Act conn) (Shared.Good base) (fun i s pc => pc.Good conn base i s) where
  init s loc h := by
    obtain ⟨hG, howner, hqueue, hloc⟩ := hinit s loc h
    refine ⟨hG, fun i => ?_⟩
    rw [hloc i]
    exact .of_not_holds rfl rfl (by rw [howner]; nofun) (hqueue i)
  own i σ s pc h hG hI := ⟨h.shared_good hG hI, h.good hG hI⟩
  others i j σ s pc hij h hG hI hJ := hJ.rely (h.rely hG hI hij)

end Steps

/-! ### The result -/

variable [DecidableEq ι] [DecidableEq κ] {size : ℕ}

end Transport.Wakeup

end AlephZero
