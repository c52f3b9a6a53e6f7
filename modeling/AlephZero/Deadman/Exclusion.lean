import AlephZero.Deadman.Basic

/-!
# The deadman's tenures

## What is proved

* `Effect` — what a step does to the word, the token and the tenures.
* `SharedToken.Good`, `Thread.Good` — the invariant: the word says whose tenure it is, and
  only that thread is past the compare-and-swap, or inside.
* **`exclusive`** — at most one thread is inside, the word has its id, and it is told whether
  the last tenure ended by death; and its token is larger than any before, while fewer than
  `2 ^ 64` have been given.
* `not_tokensIncrease` — with more of them the token wraps.
-/

namespace AlephZero

namespace Deadman

variable {ι Ω : Type} {tid : ι → Tid} {i j : ι}
  {s s' : SharedToken ι} {t t' : Thread Ω}

/-! ### The invariant -/

/-- The tokens of so many owners. -/
def stored : ℕ → List ℕ
  | 0 => []
  | n + 1 => (n + 1) % 2 ^ 64 :: stored n

/-- The word says whose tenure it is, and the token how many there have been. -/
structure SharedToken.Good (tid : ι → Tid) (s : SharedToken ι) : Prop where
  free : s.holder = none → ftxTid s.ftx = 0
  held : ∀ i, s.holder = some i → ftxTid s.ftx = (tid i).val
  died : ftxOwnerDied s.ftx = true ↔ s.holder = none ∧ s.ends.head? = some true
  tokens : s.tokens = stored s.tokens.length
  tkn : s.tkn = s.tokens.length % 2 ^ 64

/-- Past the compare-and-swap, up to the release. -/
def Pc.owns : Pc Ω → Bool
  | .tokenLoad _ | .tokenStore _ _ | .acquireBroadcast _ | .unlockStore _ | .idle (some (.acquired _)) => true
  | _ => false

/-- What a thread is told, or will be, of the tenure before its own. -/
def Pc.ownerDead : Pc Ω → Option Bool
  | .tokenLoad b | .tokenStore b _ | .acquireBroadcast b | .idle (some (.acquired b)) => some b
  | _ => none

/-- Of an owner, whether it has incremented the token. -/
def Pc.hasCounted : Pc Ω → Option Bool
  | .tokenLoad _ | .tokenStore _ _ => some false
  | .acquireBroadcast _ | .idle (some (.acquired _)) => some true
  | _ => none

/-- What a thread has is what its tenure gives it. -/
structure Thread.Good (i : ι) (s : SharedToken ι) (t : Thread Ω) : Prop where
  owns : t.pc.owns = true → s.holder = some i
  isOwner : ∀ d, t.isOwner d = true → s.holder = some i
  inside : t.inside = true → s.holder = some i
  one : ∀ d d', t.isOwner d = true → t.isOwner d' = true → d = d'
  unlockStore : ∀ d, t.pc = .unlockStore d → t.isOwner d = true ∧ t.inside = false
  ownerDead : ∀ b, t.pc.ownerDead = some b → (b = true ↔ s.ends.head? = some true)
  hasCounted : ∀ b, t.pc.hasCounted = some b → s.counted = b ∧ (b = true → s.tokens ≠ [])
  tokenStore : ∀ b v, t.pc = .tokenStore b v → v = s.tkn
  tryCas : ∀ d caller old, t.pc = .tryCas d caller old → ftxTid old = 0

/-! ### What a step does -/

/-- The tenures and the token are the same. -/
structure SharedToken.Same (s s' : SharedToken ι) : Prop where
  holder : s'.holder = s.holder
  counted : s'.counted = s.counted
  ends : s'.ends = s.ends
  tkn : s'.tkn = s.tkn
  tokens : s'.tokens = s.tokens

namespace SharedToken

theorem same_self : s.Same s := ⟨rfl, rfl, rfl, rfl, rfl⟩

theorem same_broadcast : s.Same s.broadcast := ⟨rfl, rfl, rfl, rfl, rfl⟩

theorem same_setWaiters : s.Same s.setWaiters := ⟨rfl, rfl, rfl, rfl, rfl⟩

theorem same_sleep [DecidableEq ι] : s.Same (s.sleep i) := ⟨rfl, rfl, rfl, rfl, rfl⟩

theorem same_wake [DecidableEq ι] : s.Same (s.wake i) := ⟨rfl, rfl, rfl, rfl, rfl⟩

end SharedToken

/-- What a step of a thread does. -/
inductive Effect (tid : ι → Tid) (i : ι) (s : SharedToken ι) : SharedToken ι → Prop where
  | same {s' : SharedToken ι} (h : s.Same s') (htid : ftxTid s'.ftx = ftxTid s.ftx)
      (hdied : ftxOwnerDied s'.ftx = ftxOwnerDied s.ftx) : Effect tid i s s'
  | acquires (h : s.holder = none) : Effect tid i s (s.acquire i (tid i))
  | counts (h : s.holder = some i) (hcounted : s.counted = false) : Effect tid i s (s.count s.tkn)
  | releases (h : s.holder = some i) : Effect tid i s s.release
  | dies {s' : SharedToken ι} (h : s.holder = some i) (hsame : s.die.Same s') (hftx : s'.ftx = s.die.ftx) :
      Effect tid i s s'

theorem SharedToken.Good.holder_eq_none (h : s.Good tid) (h0 : ftxTid s.ftx = 0) : s.holder = none := by
  rcases hs : s.holder with _ | j
  · rfl
  · exact absurd ((h.held j hs).symm.trans h0) (tid j).ne_zero

theorem SharedToken.Good.holder_eq_some (hinj : ∀ i j, (tid i).val = (tid j).val → i = j) (h : s.Good tid)
    (hi : ftxTid s.ftx = (tid i).val) : s.holder = some i := by
  rcases hs : s.holder with _ | j
  · exact absurd (hi.symm.trans (h.free hs)) (tid i).ne_zero
  · rw [hinj i j (hi.symm.trans (h.held j hs))]

theorem Effect.good (h : Effect tid i s s') (hG : s.Good tid) : s'.Good tid := by
  cases h with
  | same h htid hdied =>
    refine ⟨fun hs => ?_, fun j hs => ?_, ?_, ?_, ?_⟩
    · rw [htid]
      exact hG.free (h.holder ▸ hs)
    · rw [htid]
      exact hG.held j (h.holder ▸ hs)
    · rw [hdied, h.holder, h.ends]
      exact hG.died
    · rw [h.tokens]
      exact hG.tokens
    · rw [h.tkn, h.tokens]
      exact hG.tkn
  | acquires h =>
    have htid : ftxTid (ftxAcquire s.ftx (tid i)) = (tid i).val := ftxTid_acquire (hG.free h)
    refine ⟨fun hs => ?_, fun j hs => ?_, ?_, hG.tokens, hG.tkn⟩
    · cases hs
    · cases hs
      exact htid
    · simp [SharedToken.acquire]
  | counts h _ =>
    refine ⟨hG.free, hG.held, hG.died, ?_, ?_⟩
    · rw [SharedToken.count, List.length_cons, stored, ← hG.tokens, hG.tkn, Nat.mod_add_mod]
    · rw [SharedToken.count, List.length_cons, hG.tkn, Nat.mod_add_mod]
  | releases h =>
    refine ⟨fun _ => ftxTid_and_waiters, fun j hs => ?_, ?_, hG.tokens, hG.tkn⟩
    · cases hs
    · simp [SharedToken.release]
  | dies h hsame hftx =>
    refine ⟨fun _ => ?_, fun j hs => ?_, ?_, ?_, ?_⟩
    · rw [hftx]
      exact ftxTid_die
    · rw [hsame.holder] at hs
      cases hs
    · rw [hftx, hsame.holder, hsame.ends]
      simp [SharedToken.die]
    · rw [hsame.tokens]
      exact hG.tokens
    · rw [hsame.tkn, hsame.tokens]
      exact hG.tkn

/-- The steps of another leave the holder and its tenure alone. -/
theorem Effect.frame (h : Effect tid i s s') (hj : j ≠ i) (hs : s.holder = some j) : s.Same s' := by
  cases h with
  | same h _ _ => exact h
  | acquires h => cases h.symm.trans hs
  | counts h _ => exact absurd (Option.some.inj (hs.symm.trans h)) hj
  | releases h => exact absurd (Option.some.inj (hs.symm.trans h)) hj
  | dies h _ _ => exact absurd (Option.some.inj (hs.symm.trans h)) hj

/-- What a thread is told concerns its own tenure. -/
theorem Pc.owns_of_ownerDead {pc : Pc Ω} {b : Bool} (h : pc.ownerDead = some b) : pc.owns = true := by
  revert h
  fun_cases Pc.ownerDead <;> simp [Pc.owns]

theorem Pc.owns_of_hasCounted {pc : Pc Ω} {b : Bool} (h : pc.hasCounted = some b) : pc.owns = true := by
  revert h
  fun_cases Pc.hasCounted <;> simp [Pc.owns]

theorem Thread.Good.frame (h : t.Good i s) (hs : s.holder = some i → s.Same s') : t.Good i s' where
  owns ho := (hs (h.owns ho)).holder.trans (h.owns ho)
  isOwner d hd := (hs (h.isOwner d hd)).holder.trans (h.isOwner d hd)
  inside hi := (hs (h.inside hi)).holder.trans (h.inside hi)
  one := h.one
  unlockStore := h.unlockStore
  ownerDead b hb := by
    rw [(hs (h.owns (Pc.owns_of_ownerDead hb))).ends]
    exact h.ownerDead b hb
  hasCounted b hb := by
    have hsame := hs (h.owns (Pc.owns_of_hasCounted hb))
    rw [hsame.counted, hsame.tokens]
    exact h.hasCounted b hb
  tokenStore b v hpc := by
    rw [(hs (h.owns (by rw [hpc]; rfl))).tkn]
    exact h.tokenStore b v hpc
  tryCas := h.tryCas

/-! ### The steps of a thread -/

/-- A thread that is not past its compare-and-swap owns nothing that is not its objects'. -/
theorem Thread.Good.at (h : t.Good i s) {pc : Pc Ω} {first : ℕ} {watches : List Watch} (howns : pc.owns = false)
    (hcas : ∀ d caller old, pc = .tryCas d caller old → ftxTid old = 0) :
    Thread.Good i s { t with pc := pc, first := first, watches := watches } where
  owns ho := by simp_all
  isOwner := h.isOwner
  inside := h.inside
  one := h.one
  unlockStore d hpc := by
    subst hpc
    cases howns
  ownerDead b hb := absurd (Pc.owns_of_ownerDead hb) (by simp [howns])
  hasCounted b hb := absurd (Pc.owns_of_hasCounted hb) (by simp [howns])
  tokenStore b v hpc := by
    subst hpc
    cases howns
  tryCas := hcas

theorem Thread.good_fresh : (Thread.fresh Ω).Good i s := by
  constructor <;> simp [Thread.fresh, Pc.owns, Pc.ownerDead, Pc.hasCounted]

theorem Thread.good_dead : (Thread.dead Ω).Good i s := by
  constructor <;> simp [Thread.dead, Pc.owns, Pc.ownerDead, Pc.hasCounted]

/-- A thread goes on, and the tenures are the same. -/
theorem Thread.Good.move (h : t.Good i s) (hs : s.Same s') {pc : Pc Ω} (howns : pc.owns = false)
    (hcas : ∀ d caller old, pc = .tryCas d caller old → ftxTid old = 0) : Thread.Good i s' { t with pc := pc } :=
  (h.frame fun _ => hs).at howns hcas

theorem Caller.owns_busy (d : Ω) (caller : Caller) : (caller.busy d).owns = false := by
  cases caller <;> rfl

theorem Wait.owns_restart (w : Wait Ω) : w.restart.owns = false := by
  cases w <;> rfl

theorem Caller.busy_ne_tryCas (d d' : Ω) (caller caller' : Caller) (old : Ftx) :
    caller.busy d ≠ .tryCas d' caller' old := by
  cases caller <;> exact nofun

theorem Wait.restart_ne_tryCas (w : Wait Ω) (d : Ω) (caller : Caller) (old : Ftx) :
    w.restart ≠ .tryCas d caller old := by
  cases w <;> exact nofun

/-- What a thread loads. -/
theorem Load.good {n : Tid} {asleep : Bool} (h : Load n asleep s t t') (hI : t.Good i s) : t'.Good i s := by
  cases h with
  | callUnlock r d hpc hd =>
    refine ⟨fun _ => hI.isOwner d hd, hI.isOwner, nofun, hI.one, fun d' h => ?_, nofun, nofun, nofun, nofun⟩
    cases h
    exact ⟨hd, rfl⟩
  | tryFree d caller hpc htid =>
    refine hI.at rfl fun d' caller' old h => ?_
    cases h
    exact htid
  | tryBusy d caller hpc htid hown =>
    exact hI.at (caller.owns_busy d) fun d' caller' old h => absurd h (caller.busy_ne_tryCas d d' caller' old)
  | tryCasFails d caller old hpc hftx =>
    exact hI.at (caller.owns_busy d) fun d' caller' old h => absurd h (caller.busy_ne_tryCas d d' caller' old)
  | tokenLoad b hpc =>
    have howns : s.holder = some i := hI.owns (by rw [hpc]; rfl)
    refine ⟨fun _ => howns, hI.isOwner, hI.inside, hI.one, nofun, fun b' hb => ?_, fun b' hb => ?_,
      fun b' v h => ?_, nofun⟩
    · exact hI.ownerDead b' (by rw [hpc]; exact hb)
    · exact hI.hasCounted b' (by rw [hpc]; exact hb)
    · cases h
      rfl
  | setWaitersFails w old hpc hftx =>
    exact hI.at w.owns_restart fun d caller old h => absurd h (w.restart_ne_tryCas d caller old)
  | waitChanged w new hpc hftx =>
    exact hI.at w.owns_restart fun d caller old h => absurd h (w.restart_ne_tryCas d caller old)
  | wakes w hpc ha => exact hI.at w.owns_restart fun d caller old h => absurd h (w.restart_ne_tryCas d caller old)
  | born hpc => exact Thread.good_fresh
  | _ => exact hI.at rfl nofun

variable [DecidableEq ι] [DecidableEq Ω] {σ : Threads ι (SharedToken ι) (Thread Ω)}

theorem SharedToken.wakeOne_eq (woken : Option ι) :
    s.wakeOne woken = { s with asleep := (s.wakeOne woken).asleep } := by
  cases woken <;> rfl

/-- What the steps do. -/
theorem Act.effect (hinj : ∀ i j, (tid i).val = (tid j).val → i = j) (hG : σ.shared.Good tid)
    (hI : (σ.loc i).Good i σ.shared) (h : Act tid i σ s t) : Effect tid i σ.shared s := by
  cases h with
  | load _ _ => exact .same SharedToken.same_self rfl rfl
  | acquires d caller old hpc hftx =>
    exact .acquires (hG.holder_eq_none (hftx ▸ hI.tryCas d caller old hpc))
  | counts b v hpc =>
    rw [hI.tokenStore b v hpc]
    exact .counts (hI.owns (by rw [hpc]; rfl)) (hI.hasCounted false (by rw [hpc]; rfl)).1
  | acquireBroadcasts b hpc => exact .same SharedToken.same_broadcast rfl rfl
  | releases d hpc => exact .releases (hI.owns (by rw [hpc]; rfl))
  | unlockBroadcasts hpc => exact .same SharedToken.same_broadcast rfl rfl
  | setsWaiters w old hpc hftx =>
    exact .same SharedToken.same_setWaiters ftxTid_or_waiters ftxOwnerDied_or_waiters
  | sleeps w new hpc hftx => exact .same SharedToken.same_sleep rfl rfl
  | givesUp w e hpc he => exact .same SharedToken.same_wake rfl rfl
  | stirs w hpc => exact .same SharedToken.same_wake rfl rfl
  | shutsDown r hpc => exact .same SharedToken.same_broadcast rfl rfl
  | ownerDies woken hpc htid hwoken =>
    refine .dies (hG.holder_eq_some hinj htid) ?_ ?_
    · rw [SharedToken.wakeOne_eq]
      exact ⟨rfl, rfl, rfl, rfl, rfl⟩
    · rw [SharedToken.wakeOne_eq]
      rfl
  | otherDies hpc htid => exact .same SharedToken.same_wake rfl rfl

/-- What a thread does keeps its own. -/
theorem Act.good (hG : σ.shared.Good tid) (hI : (σ.loc i).Good i σ.shared) (h : Act tid i σ s t) : t.Good i s := by
  cases h with
  | load _ h => exact h.good hI
  | acquires d caller old hpc hftx =>
    have hfree := hG.holder_eq_none (hftx ▸ hI.tryCas d caller old hpc)
    -- it had no object, as there was no owner
    have hno (d' : Ω) : (σ.loc i).isOwner d' = false :=
      Bool.eq_false_iff.mpr fun hd => nomatch hfree.symm.trans (hI.isOwner d' hd)
    have hd (d' : Ω) (h : Function.update (σ.loc i).isOwner d true d' = true) : d' = d := by
      by_contra hne
      simp [Function.update_of_ne hne, hno] at h
    refine ⟨fun _ => rfl, fun _ _ => rfl, fun _ => rfl, fun d₁ d₂ h₁ h₂ => (hd d₁ h₁).trans (hd d₂ h₂).symm, nofun,
      fun b hb => ?_, fun b hb => ?_, nofun, nofun⟩
    · cases hb
      rw [← hftx, hG.died]
      simp [hfree, SharedToken.acquire]
    · cases hb
      exact ⟨rfl, nofun⟩
  | counts b v hpc =>
    have howns : σ.shared.holder = some i := hI.owns (by rw [hpc]; rfl)
    refine ⟨fun _ => howns, hI.isOwner, hI.inside, hI.one, nofun, fun b' hb => ?_, fun b' hb => ?_, nofun, nofun⟩
    · exact hI.ownerDead b' (by rw [hpc]; exact hb)
    · cases hb
      exact ⟨rfl, fun _ => nofun⟩
  | acquireBroadcasts b hpc =>
    have howns : σ.shared.holder = some i := hI.owns (by rw [hpc]; rfl)
    refine ⟨fun _ => howns, hI.isOwner, fun _ => howns, hI.one, nofun, fun b' hb => ?_, fun b' hb => ?_, nofun, nofun⟩
    · exact hI.ownerDead b' (by rw [hpc]; exact hb)
    · exact hI.hasCounted b' (by rw [hpc]; exact hb)
  | releases d hpc =>
    obtain ⟨hd, hin⟩ := hI.unlockStore d hpc
    have hno (d' : Ω) : Function.update (σ.loc i).isOwner d false d' = false := by
      by_cases h : d' = d
      · simp [h]
      · rw [Function.update_of_ne h]
        exact Bool.eq_false_iff.mpr fun hd' => h (hI.one d' d hd' hd)
    refine ⟨nofun, fun d' h => ?_, fun h => ?_, fun d₁ _ h => ?_, nofun, nofun, nofun, nofun, nofun⟩
    · exact nomatch (hno d').symm.trans h
    · exact nomatch hin.symm.trans h
    · exact nomatch (hno d₁).symm.trans h
  | unlockBroadcasts hpc => exact hI.move SharedToken.same_broadcast rfl nofun
  | setsWaiters w old hpc hftx => exact hI.move SharedToken.same_setWaiters rfl nofun
  | sleeps w new hpc hftx => exact hI.move SharedToken.same_sleep rfl nofun
  | givesUp w e hpc he => exact hI.move SharedToken.same_wake rfl nofun
  | stirs w hpc => exact hI.frame fun _ => SharedToken.same_wake
  | shutsDown r hpc => exact hI.frame fun _ => SharedToken.same_broadcast
  | ownerDies woken hpc htid hwoken => exact Thread.good_dead
  | otherDies hpc htid => exact Thread.good_dead

/-! ### Runs -/

/-- The invariant holds at any time. -/
theorem stable (hinj : ∀ i j, (tid i).val = (tid j).val → i = j) :
    Threads.Stable (fun s loc => s = .fresh ∧ ∀ i, loc i = .fresh Ω) (Act tid) (·.Good tid) Thread.Good where
  init s loc h := by
    obtain ⟨rfl, hloc⟩ := h
    refine ⟨⟨fun _ => ftxTid_zero, nofun, ?_, rfl, rfl⟩, fun i => hloc i ▸ Thread.good_fresh⟩
    simpa [SharedToken.fresh] using ftxOwnerDied_zero
  own i σ s t h hG hI := ⟨(h.effect hinj hG hI).good hG, h.good hG hI⟩
  others i j σ s t hj h hG hI hJ := hJ.frame ((h.effect hinj hG hI).frame hj)

/-! ### Exclusion -/

/-- Of a state, what the lock gives to those that have it. -/
structure Exclusive (tid : ι → Tid) (σ : Threads ι (SharedToken ι) (Thread Ω)) : Prop where
  /-- At most one thread is between the return of its lock and its unlock. -/
  one : ∀ i j, (σ.loc i).inside = true → (σ.loc j).inside = true → i = j
  word : ∀ i, (σ.loc i).inside = true → ftxTid σ.shared.ftx = (tid i).val
  /-- It has been told `EOWNERDEAD` if the tenure before its own ended by death. -/
  ownerDead : ∀ i b, (σ.loc i).pc = .idle (some (.acquired b)) → (b = true ↔ σ.shared.ends.head? = some true)

/-- A lock leaves a token that is larger than those that earlier ones have left. -/
def TokensIncrease (σ : Threads ι (SharedToken ι) (Thread Ω)) : Prop :=
  ∀ i b, (σ.loc i).pc = .idle (some (.acquired b)) →
    ∃ earlier, σ.shared.tokens = σ.shared.tkn :: earlier ∧ ∀ tkn ∈ earlier, tkn < σ.shared.tkn

theorem lt_of_mem_stored {n tkn : ℕ} (hn : n < 2 ^ 64) (h : tkn ∈ stored n) : tkn < n + 1 := by
  induction n with
  | zero => cases h
  | succ n ih =>
    rcases List.mem_cons.mp h with rfl | h
    · exact Nat.lt_succ_of_le (Nat.mod_le _ _)
    · exact Nat.lt_succ_of_lt (ih (Nat.lt_of_succ_lt hn) h)

/-- The lock excludes, and its tokens increase while they do not wrap. -/
theorem exclusive (hinj : ∀ i j, (tid i).val = (tid j).val → i = j) (hσ : (runs (Ω := Ω) tid).Reach σ) :
    Exclusive tid σ ∧ (σ.shared.tokens.length < 2 ^ 64 → TokensIncrease σ) := by
  obtain ⟨hG, hI⟩ := (stable hinj).isInvariant.reach hσ
  refine ⟨⟨fun i j hi hj => ?_, fun i hi => ?_, fun i b hb => ?_⟩, fun hlen i b hb => ?_⟩
  · exact Option.some.inj (((hI i).inside hi).symm.trans ((hI j).inside hj))
  · exact hG.held i ((hI i).inside hi)
  · exact (hI i).ownerDead b (by rw [hb]; rfl)
  · have hne : σ.shared.tokens ≠ [] := ((hI i).hasCounted true (by rw [hb]; rfl)).2 rfl
    obtain ⟨n, hn⟩ := Nat.exists_eq_succ_of_ne_zero (mt List.eq_nil_of_length_eq_zero hne)
    have htkn := hG.tkn
    rw [hn] at hlen
    rw [hn, Nat.mod_eq_of_lt hlen] at htkn
    refine ⟨stored n, ?_, fun tkn h => ?_⟩
    · rw [hG.tokens, hn, stored, Nat.mod_eq_of_lt hlen, htkn]
    · rw [htkn]
      exact lt_of_mem_stored (Nat.lt_of_succ_lt hlen) h

/-! ### The token wraps -/

section Wrap

/-- One thread, with the id 1. -/
def tidOne : Unit → Tid := fun _ => ⟨1, ftxTid_one, ftx_one_ne_zero⟩

/-- The thread is in no call and does not have the lock, which has been taken `n` times. -/
structure Free (n : ℕ) (σ : Threads Unit (SharedToken Unit) (Thread Unit)) : Prop where
  idle : ∃ r, (σ.loc ()).pc = .idle r
  isOwner : (σ.loc ()).isOwner () = false
  ftx : σ.shared.ftx = 0
  tokens : σ.shared.tokens = stored n
  tkn : σ.shared.tkn = n % 2 ^ 64

/-- The lock has been taken `n` times, the last time just now. -/
structure Taken (n : ℕ) (σ : Threads Unit (SharedToken Unit) (Thread Unit)) : Prop where
  acquired : ∃ b, (σ.loc ()).pc = .idle (some (.acquired b))
  isOwner : (σ.loc ()).isOwner () = true
  ftx : σ.shared.ftx = ftxAcquire 0 (tidOne ())
  tokens : σ.shared.tokens = stored n
  tkn : σ.shared.tkn = n % 2 ^ 64

variable {n : ℕ} {σ : Threads Unit (SharedToken Unit) (Thread Unit)}

theorem Free.take (h : Free n σ) (hσ : (runs tidOne).Reach σ) : ∃ σ', (runs tidOne).Reach σ' ∧ Taken (n + 1) σ' := by
  obtain ⟨r, hr⟩ := h.idle
  have h1 := Threads.reach_act hσ () (.load _ (.callTrylock r () hr h.isOwner))
  have h2 := Threads.reach_act h1 () (.load _ (.tryShutdown () .trylock rfl))
  have h3 := Threads.reach_act h2 () (.load _ (.tryFree () .trylock rfl ((congrArg ftxTid h.ftx).trans ftxTid_zero)))
  have h4 := Threads.reach_act h3 () (.acquires () .trylock _ rfl rfl)
  have h5 := Threads.reach_act h4 () (.load _ (.tokenLoad _ rfl))
  have h6 := Threads.reach_act h5 () (.counts _ _ rfl)
  have h7 := Threads.reach_act h6 () (.acquireBroadcasts _ rfl)
  refine ⟨_, h7, ⟨_, rfl⟩, rfl, ?_, ?_, ?_⟩
  · exact congrArg (ftxAcquire · (tidOne ())) h.ftx
  · simp [SharedToken.broadcast, SharedToken.count, SharedToken.acquire, h.tokens, h.tkn, stored]
  · simp [SharedToken.broadcast, SharedToken.count, SharedToken.acquire, h.tkn]

theorem Taken.leave (h : Taken n σ) (hσ : (runs tidOne).Reach σ) : ∃ σ', (runs tidOne).Reach σ' ∧ Free n σ' := by
  obtain ⟨b, hb⟩ := h.acquired
  have h1 := Threads.reach_act hσ () (.load _ (.callUnlock _ () hb h.isOwner))
  have h2 := Threads.reach_act h1 () (.releases () rfl)
  have h3 := Threads.reach_act h2 () (.unlockBroadcasts rfl)
  refine ⟨_, h3, ⟨_, rfl⟩, rfl, ?_, h.tokens, h.tkn⟩
  have hftx : (ftxAcquire 0 (tidOne ())) &&& futexWaiters = 0 := by decide
  exact (congrArg (· &&& futexWaiters) h.ftx).trans hftx

theorem exists_free (n : ℕ) : ∃ σ, (runs tidOne).Reach σ ∧ Free n σ := by
  induction n with
  | zero => exact ⟨⟨.fresh, fun _ => .fresh Unit⟩, .init ⟨rfl, fun _ => rfl⟩, ⟨_, rfl⟩, rfl, rfl, rfl, rfl⟩
  | succ n ih =>
    obtain ⟨σ, hσ, h⟩ := ih
    obtain ⟨τ, hτ, h'⟩ := h.take hσ
    exact h'.leave hτ

/-- The first time it is taken. -/
theorem exclusive_one : ∃ σ, Taken 1 σ ∧ Exclusive tidOne σ ∧ TokensIncrease σ := by
  obtain ⟨σ, hσ, h⟩ := exists_free 0
  obtain ⟨τ, hτ, h'⟩ := h.take hσ
  obtain ⟨hexcl, hinc⟩ := exclusive (fun _ _ _ => rfl) hτ
  refine ⟨τ, h', hexcl, hinc ?_⟩
  rw [h'.tokens]
  decide

/-- As it is taken for the `2 ^ 64`-th time, the token is zero. -/
theorem not_tokensIncrease : ∃ σ, (runs (Ω := Unit) tidOne).Reach σ ∧ ¬TokensIncrease σ := by
  obtain ⟨n, hn⟩ : ∃ n, n + 2 = 2 ^ 64 := ⟨2 ^ 64 - 2, rfl⟩
  obtain ⟨σ, hσ, h⟩ := exists_free (n + 1)
  obtain ⟨τ, hτ, h'⟩ := h.take hσ
  refine ⟨τ, hτ, fun hinc => ?_⟩
  obtain ⟨b, hb⟩ := h'.acquired
  obtain ⟨earlier, htokens, hlt⟩ := hinc () b hb
  have htkn : τ.shared.tkn = 0 := by rw [h'.tkn, hn, Nat.mod_self]
  obtain ⟨-, rfl⟩ := List.cons.inj (h'.tokens.symm.trans htokens)
  exact Nat.not_lt_zero _ (htkn ▸ hlt _ List.mem_cons_self)

end Wrap

end Deadman

end AlephZero
