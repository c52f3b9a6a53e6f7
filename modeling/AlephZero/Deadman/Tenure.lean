import AlephZero.Deadman.Exclusion
import Mathlib.Order.Basic
import Mathlib.Data.Nat.Basic

/-!
# What a token says

`a0_deadman_mtx_wait_locked` sees an owner in the word, and then loads the token;
`a0_deadman_mtx_wait_unlocked` waits until there is no owner, or another token. But an owner
increments the token after its compare-and-swap, and in between the token is an old one.

## What is proved

* `Thread.Watching` — the invariant: the tenure that was seen has ended, or the token is still its own.
* **`watches_right`** — if no token is loaded while its owner has yet to increment it, then
  `wait_unlocked` returns only after the tenure that `wait_locked` has seen has ended.
* `not_watchesRight` — else it may return although no tenure has ended.
-/

namespace AlephZero

namespace Deadman

variable {ι Ω : Type} {tid : ι → Tid} {i j : ι} {s s' : SharedToken ι} {t t' : Thread Ω} {w : Watch} {k : ℕ}

/-! ### What should hold -/

/-- A tenure has ended. -/
def SharedToken.Ended (s : SharedToken ι) (k : ℕ) : Prop := k ≤ s.ends.length

/-- What `wait_locked` has returned is right: its owner has held the lock during the call, and
if `wait_unlocked` has just returned for its token, then that tenure has ended. -/
structure Watch.Right (s : SharedToken ι) (t : Thread Ω) (w : Watch) : Prop where
  held : w.first ≤ w.seen ∧ w.seen ≤ w.last
  ended : t.pc = .idle (some (.unlocked w.tkn)) → s.Ended w.seen

/-- Whatever a thread has been given is right. -/
def WatchesRight (σ : Threads ι (SharedToken ι) (Thread Ω)) : Prop :=
  ∀ i, ∀ w ∈ (σ.loc i).watches, w.Right σ.shared (σ.loc i)

/-- If a thread that has seen the owner of the present tenure loads the token, then the owner
has incremented it. -/
def TokenCounted (i : ι) (σ : Threads ι (SharedToken ι) (Thread Ω)) (_ : SharedToken ι) (t : Thread Ω) : Prop :=
  ∀ seen, (σ.loc i).pc = .lockedToken seen → t.pc ≠ .dead → seen = σ.shared.begun →
    σ.shared.holder.isSome = true → σ.shared.counted = true

/-! ### The invariant -/

/-- The tenure has ended, or is the present one, and its token is this. -/
def SharedToken.EndedOr (s : SharedToken ι) (k tkn : ℕ) : Prop :=
  s.Ended k ∨ k = s.begun ∧ s.holder.isSome = true ∧ s.counted = true ∧ s.tkn = tkn

/-- What a thread has seen, and been given. -/
structure Thread.Watching (s : SharedToken ι) (t : Thread Ω) : Prop where
  first : t.first ≤ s.ends.length + 1
  seen : ∀ k, t.pc = .lockedToken k → t.first ≤ k ∧ k ≤ s.begun
  watches : ∀ w ∈ t.watches, (w.first ≤ w.seen ∧ w.seen ≤ w.last) ∧ s.EndedOr w.seen w.tkn
  unlocked : ∀ w ∈ t.watches, t.pc = .idle (some (.unlocked w.tkn)) → s.Ended w.seen

/-- What a step leaves of this: tenures only begin, and only end. -/
structure SharedToken.Later (s s' : SharedToken ι) : Prop where
  ends : s.ends.length ≤ s'.ends.length
  begun : s.begun ≤ s'.begun
  endedOr : ∀ k tkn, s.EndedOr k tkn → s'.EndedOr k tkn

theorem SharedToken.Same.later (h : s.Same s') : s.Later s' where
  ends := le_of_eq (by rw [h.ends])
  begun := le_of_eq (by rw [SharedToken.begun, SharedToken.begun, h.ends, h.holder])
  endedOr k tkn hk := by
    rw [SharedToken.EndedOr, SharedToken.Ended, SharedToken.begun, h.ends, h.holder, h.counted, h.tkn]
    exact hk

/-- The tenure ends. -/
theorem SharedToken.later_of_ends (hi : s.holder = some i) (hends : s'.ends.length = s.ends.length + 1)
    (hnone : s'.holder = none) : s.Later s' where
  ends := by omega
  begun := by simp [SharedToken.begun, hi, hnone, hends]
  endedOr k tkn hk := by
    refine .inl ?_
    rcases hk with hk | ⟨hk, -⟩
    · exact Nat.le_trans hk (by omega)
    · rw [SharedToken.begun, hi] at hk
      exact hk.le.trans hends.ge

theorem Effect.later (h : Effect tid i s s') : s.Later s' := by
  cases h with
  | same h _ _ => exact h.later
  | acquires h =>
    refine ⟨le_rfl, ?_, fun k tkn hk => ?_⟩
    · simp [SharedToken.begun, SharedToken.acquire, h]
    · rcases hk with hk | ⟨-, hsome, -⟩
      · exact .inl hk
      · simp [h] at hsome
  | counts h hcounted =>
    refine ⟨le_rfl, le_rfl, fun k tkn hk => ?_⟩
    rcases hk with hk | ⟨-, -, hc, -⟩
    · exact .inl hk
    · cases hcounted.symm.trans hc
  | releases h => exact SharedToken.later_of_ends h rfl rfl
  | dies h hsame _ =>
    exact SharedToken.later_of_ends h (congrArg List.length hsame.ends) hsame.holder

theorem Thread.Watching.later (h : t.Watching s) (hs : s.Later s') : t.Watching s' where
  first := h.first.trans (Nat.add_le_add_right hs.ends 1)
  seen k hk := ⟨(h.seen k hk).1, (h.seen k hk).2.trans hs.begun⟩
  watches w hw := ⟨(h.watches w hw).1, hs.endedOr _ _ (h.watches w hw).2⟩
  unlocked w hw hpc := (h.unlocked w hw hpc).trans hs.ends

/-- A thread goes on, and has neither seen an owner nor returned. -/
theorem Thread.Watching.at (h : t.Watching s) {pc : Pc Ω} {isOwner : Ω → Bool} {inside : Bool}
    (hseen : ∀ k, pc ≠ .lockedToken k) (hidle : ∀ tkn, pc ≠ .idle (some (.unlocked tkn))) :
    Thread.Watching s { t with pc := pc, isOwner := isOwner, inside := inside } where
  first := h.first
  seen k hk := absurd hk (hseen k)
  watches := h.watches
  unlocked w _ hpc := absurd hpc (hidle w.tkn)

/-- A call begins. -/
theorem Thread.Watching.call (h : t.Watching s) {pc : Pc Ω} (hseen : ∀ k, pc ≠ .lockedToken k)
    (hidle : ∀ tkn, pc ≠ .idle (some (.unlocked tkn))) :
    Thread.Watching s { t with pc := pc, first := s.ends.length + 1 } where
  first := le_rfl
  seen k hk := absurd hk (hseen k)
  watches := h.watches
  unlocked w _ hpc := absurd hpc (hidle w.tkn)

/-- `wait_unlocked` returns. -/
theorem Thread.Watching.unlock (h : t.Watching s) {tkn : ℕ}
    (hended : ∀ w ∈ t.watches, w.tkn = tkn → s.Ended w.seen) :
    Thread.Watching s { t with pc := .idle (some (.unlocked tkn)) } where
  first := h.first
  seen k hk := nomatch hk
  watches := h.watches
  unlocked w hw hpc := by
    cases hpc
    exact hended w hw rfl

theorem Thread.watching_fresh : (Thread.fresh Ω).Watching s := by
  constructor <;> simp [Thread.fresh]

theorem Thread.watching_dead : (Thread.dead Ω).Watching s := by
  constructor <;> simp [Thread.dead]

theorem Caller.busy_ne_lockedToken (d : Ω) (caller : Caller) (k : ℕ) : caller.busy d ≠ .lockedToken k := by
  cases caller <;> exact nofun

theorem Caller.busy_ne_unlocked (d : Ω) (caller : Caller) (tkn : ℕ) :
    caller.busy d ≠ .idle (some (.unlocked tkn)) := by
  cases caller <;> exact nofun

theorem Wait.restart_ne_lockedToken (w : Wait Ω) (k : ℕ) : w.restart ≠ .lockedToken k := by
  cases w <;> exact nofun

theorem Wait.restart_ne_unlocked (w : Wait Ω) (tkn : ℕ) : w.restart ≠ .idle (some (.unlocked tkn)) := by
  cases w <;> exact nofun

/-- There is no owner, so all tenures have ended. -/
theorem SharedToken.Good.ended (hG : s.Good tid) (h : ftxTid s.ftx = 0 ∨ ftxOwnerDied s.ftx = true) {tkn : ℕ}
    (hk : s.EndedOr k tkn) : s.Ended k := by
  have hnone : s.holder = none := h.elim hG.holder_eq_none fun hdied => (hG.died.mp hdied).1
  rcases hk with hk | ⟨-, hsome, -⟩
  · exact hk
  · simp [hnone] at hsome

/-- A tenure that has begun has ended, or it is the present one. -/
theorem SharedToken.endedOr_tkn (hk : k ≤ s.begun)
    (hcounted : k = s.begun → s.holder.isSome = true → s.counted = true) : s.EndedOr k s.tkn := by
  by_cases hsome : s.holder.isSome = true
  · rcases hk.eq_or_lt with hk | hk
    · exact .inr ⟨hk, hsome, hcounted hk hsome, rfl⟩
    · rw [SharedToken.begun, if_pos hsome] at hk
      exact .inl (Nat.le_of_lt_succ hk)
  · rw [SharedToken.begun, if_neg hsome] at hk
    exact .inl hk

/-- What a thread loads. -/
theorem Load.watching {n : Tid} {asleep : Bool} (hG : s.Good tid) (h : Load n asleep s t t') (hI : t.Watching s)
    (hcounted : ∀ seen, t.pc = .lockedToken seen → t'.pc ≠ .dead → seen = s.begun → s.holder.isSome = true →
      s.counted = true) : t'.Watching s := by
  cases h with
  | callTrylock r d hpc hd => exact hI.call nofun nofun
  | callTimedlock r d hpc hd => exact hI.call nofun nofun
  | callWaitLocked r hpc => exact hI.call nofun nofun
  | callWaitUnlocked r tkn hpc => exact hI.call nofun nofun
  | tryBusy d caller hpc htid hown => exact hI.at (caller.busy_ne_lockedToken d) (caller.busy_ne_unlocked d)
  | tryCasFails d caller old hpc hftx => exact hI.at (caller.busy_ne_lockedToken d) (caller.busy_ne_unlocked d)
  | lockedSeen hpc htid hdied =>
    have hsome : s.begun = s.ends.length + 1 := by
      rcases hs : s.holder with _ | j
      · exact absurd (hG.free hs) htid
      · simp [SharedToken.begun, hs]
    refine ⟨hI.first, fun k hk => ?_, hI.watches, nofun⟩
    cases hk
    exact ⟨hI.first, hsome.ge⟩
  | lockedToken seen hpc =>
    obtain ⟨hfirst, hlast⟩ := hI.seen seen hpc
    refine ⟨hI.first, nofun, fun w hw => ?_, nofun⟩
    rcases List.mem_cons.mp hw with rfl | hw
    · exact ⟨⟨hfirst, hlast⟩, SharedToken.endedOr_tkn hlast (hcounted seen hpc nofun)⟩
    · exact hI.watches w hw
  | unlockedNow tkn hpc hftx => exact hI.unlock fun w hw _ => hG.ended hftx (hI.watches w hw).2
  | unlockedOther tkn old hpc htkn =>
    refine hI.unlock fun w hw h => ?_
    rcases (hI.watches w hw).2 with hk | ⟨-, -, -, htkn'⟩
    · exact hk
    · exact absurd (htkn'.trans h) htkn
  | setWaitersFails w old hpc hftx => exact hI.at w.restart_ne_lockedToken w.restart_ne_unlocked
  | waitChanged w new hpc hftx => exact hI.at w.restart_ne_lockedToken w.restart_ne_unlocked
  | wakes w hpc ha => exact hI.at w.restart_ne_lockedToken w.restart_ne_unlocked
  | born hpc => exact Thread.watching_fresh
  | _ => exact hI.at nofun nofun

variable [DecidableEq ι] [DecidableEq Ω] {σ : Threads ι (SharedToken ι) (Thread Ω)}

/-- What a thread does. -/
theorem Act.watching (hG : σ.shared.Good tid) (hs : σ.shared.Later s) (hI : (σ.loc i).Watching σ.shared)
    (h : Act tid i σ s t) (hcounted : TokenCounted i σ s t) : t.Watching s := by
  have hI' := hI.later hs
  cases h with
  | load _ h => exact h.watching hG hI hcounted
  | acquires d caller old hpc hftx => exact hI'.at nofun nofun
  | counts b v hpc => exact hI'.at nofun nofun
  | acquireBroadcasts b hpc => exact hI'.at nofun nofun
  | releases d hpc => exact hI'.at nofun nofun
  | unlockBroadcasts hpc => exact hI'.at nofun nofun
  | setsWaiters w old hpc hftx => exact hI'.at nofun nofun
  | sleeps w new hpc hftx => exact hI'.at nofun nofun
  | givesUp w e hpc he => exact hI'.at nofun nofun
  | stirs w hpc => exact hI'
  | shutsDown r hpc => exact hI'
  | ownerDies woken hpc htid hwoken => exact Thread.watching_dead
  | otherDies hpc htid => exact Thread.watching_dead

/-- The invariant holds at any time. -/
theorem stable_watching (hinj : ∀ i j, (tid i).val = (tid j).val → i = j) :
    Threads.Stable (fun s loc => s = .fresh ∧ ∀ i, loc i = .fresh Ω)
      (fun i σ s t => Act tid i σ s t ∧ TokenCounted i σ s t) (·.Good tid)
      fun i s t => t.Good i s ∧ t.Watching s where
  init s loc h :=
    ⟨((stable hinj).init s loc h).1, fun i => ⟨((stable hinj).init s loc h).2 i, h.2 i ▸ Thread.watching_fresh⟩⟩
  own i σ s t h hG hI := by
    obtain ⟨hG', hI'⟩ := (stable hinj).own i σ s t h.1 hG hI.1
    exact ⟨hG', hI', h.1.watching hG (h.1.effect hinj hG hI.1).later hI.2 h.2⟩
  others i j σ s t hj h hG hI hJ :=
    ⟨(stable hinj).others i j σ s t hj h.1 hG hI.1 hJ.1, hJ.2.later (h.1.effect hinj hG hI.1).later⟩

/-- A token that is loaded as its owner has incremented it is that of one tenure. -/
theorem watches_right (hinj : ∀ i j, (tid i).val = (tid j).val → i = j)
    (hσ : (runsIf (Ω := Ω) tid TokenCounted).Reach σ) : WatchesRight σ := by
  obtain ⟨-, hI⟩ := (stable_watching hinj).isInvariant.reach hσ
  exact fun i w hw => ⟨((hI i).2.watches w hw).1, (hI i).2.unlocked w hw⟩

/-! ### The old token -/

section OldToken

/-- The second thread takes the lock, and then the first one waits for it to be locked. -/
theorem watches_right_two :
    ∃ σ, (runsIf (Ω := Unit) tidTwo TokenCounted).Reach σ ∧ (σ.loc false).watches ≠ [] ∧ WatchesRight σ := by
  have h0 : (runsIf tidTwo TokenCounted).Reach ⟨.fresh, fun _ => .fresh Unit⟩ := .init ⟨rfl, fun _ => rfl⟩
  have h1 := Threads.reach_act h0 true ⟨.load _ (.callTrylock none () rfl rfl), nofun⟩
  have h2 := Threads.reach_act h1 true ⟨.load _ (.tryShutdown () .trylock rfl), nofun⟩
  have h3 := Threads.reach_act h2 true ⟨.load _ (.tryFree () .trylock rfl (by decide)), nofun⟩
  have h4 := Threads.reach_act h3 true ⟨.acquires () .trylock _ rfl rfl, nofun⟩
  have h5 := Threads.reach_act h4 true ⟨.load _ (.tokenLoad false rfl), nofun⟩
  have h6 := Threads.reach_act h5 true ⟨.counts false 0 rfl, nofun⟩
  have h7 := Threads.reach_act h6 false ⟨.load _ (.callWaitLocked none rfl), nofun⟩
  have h8 := Threads.reach_act h7 false ⟨.load _ (.lockedSeen rfl (by decide) (by decide)), nofun⟩
  have h9 := Threads.reach_act h8 false ⟨.load _ (.lockedToken 1 rfl), fun _ _ _ _ _ => rfl⟩
  exact ⟨_, h9, nofun, watches_right (by decide) h9⟩

/-- The second thread takes the lock. Before it increments the token, the first one sees it as
the owner, and is given the old token; it then waits for this token to be unlocked, and
returns at once, although the only tenure there has been goes on. -/
theorem not_watchesRight : ∃ σ, (runs (Ω := Unit) tidTwo).Reach σ ∧ ∃ w ∈ (σ.loc false).watches,
    (σ.loc false).pc = .idle (some (.unlocked w.tkn)) ∧ ∀ k, w.first ≤ k → k ≤ w.last → ¬σ.shared.Ended k := by
  have h0 : (runs tidTwo).Reach ⟨.fresh, fun _ => .fresh Unit⟩ := .init ⟨rfl, fun _ => rfl⟩
  have h1 := Threads.reach_act h0 true (.load _ (.callTrylock none () rfl rfl))
  have h2 := Threads.reach_act h1 true (.load _ (.tryShutdown () .trylock rfl))
  have h3 := Threads.reach_act h2 true (.load _ (.tryFree () .trylock rfl (by decide)))
  have h4 := Threads.reach_act h3 true (.acquires () .trylock _ rfl rfl)
  have h5 := Threads.reach_act h4 false (.load _ (.callWaitLocked none rfl))
  have h6 := Threads.reach_act h5 false (.load _ (.lockedSeen rfl (by decide) (by decide)))
  have h7 := Threads.reach_act h6 false (.load _ (.lockedToken 1 rfl))
  have h8 := Threads.reach_act h7 true (.load _ (.tokenLoad false rfl))
  have h9 := Threads.reach_act h8 true (.counts false 0 rfl)
  have h10 := Threads.reach_act h9 false (.load _ (.callWaitUnlocked _ 0 rfl))
  have h11 := Threads.reach_act h10 false (.load _ (.unlockedNot 0 rfl (by decide) (by decide)))
  have h12 := Threads.reach_act h11 false (.load _ (.unlockedOther 0 _ rfl (by decide)))
  refine ⟨_, h12, ⟨0, 1, 1, 1⟩, List.mem_cons_self, rfl, fun k hk _ hended => ?_⟩
  exact absurd (hk.trans hended) (by decide)

end OldToken

end Deadman

end AlephZero
