import AlephZero.Deadman.Exclusion

/-!
# A busy deadman mutex

`a0_deadman_mtx_trylock` compares the word with what it has loaded, and reports `EBUSY` if it
is another one. So it does if a thread that only waits has set `FUTEX_WAITERS` meanwhile.

## What is proved

* `Act.word` — the word changes as a tenure begins or ends, or as a thread sets `FUTEX_WAITERS`.
* `ComparesWith.step` — in a trylock the word is the one it has loaded, or there has been an
  owner since the call began.
* **`busy_only_if_held`** — a trylock reports `EBUSY` only if another thread that lives has held
  the lock at some instant of the call, if no thread sets `FUTEX_WAITERS` anew while a trylock
  is about to compare the word.
* `not_busy_only_if_held` — else a watcher is enough.
-/

namespace AlephZero

namespace Deadman

variable {ι Ω : Type} {tid : ι → Tid} {i j : ι} {s s' : SharedToken ι} {t t' : Thread Ω}
  {σ τ : Threads ι (SharedToken ι) (Thread Ω)} {past : List (Threads ι (SharedToken ι) (Thread Ω))}

/-! ### What should hold -/

/-- In a call of `a0_deadman_mtx_trylock`. -/
def Pc.inTrylock : Pc Ω → Bool
  | .tryShutdown _ .trylock | .tryLoad _ .trylock | .tryCas _ .trylock _ => true
  | _ => false

/-- The instants of the trylock that a thread is in, the last one first. -/
def instants (i : ι) (past : List (Threads ι (SharedToken ι) (Thread Ω))) :
    List (Threads ι (SharedToken ι) (Thread Ω)) :=
  past.takeWhile fun σ => (σ.loc i).pc.inTrylock

/-- Another thread has the lock. -/
def HeldByOther (i : ι) (σ : Threads ι (SharedToken ι) (Thread Ω)) : Prop :=
  ∃ j, j ≠ i ∧ σ.shared.holder = some j

/-- If a trylock has just returned `EBUSY`, then at an instant of it another thread that lives
had the lock. -/
def BusyOnlyIfHeld (τ : Threads ι (SharedToken ι) (Thread Ω))
    (past : List (Threads ι (SharedToken ι) (Thread Ω))) : Prop :=
  ∀ i, instants i past ≠ [] → (τ.loc i).pc = .idle (some (.failed .ebusy)) →
    ∃ σ ∈ instants i past, ∃ j, j ≠ i ∧ σ.shared.holder = some j ∧ (σ.loc j).pc ≠ .dead

/-- Who sets `FUTEX_WAITERS` in a word without it does so while no trylock is about to compare
the word with what it was. -/
def Undisturbed (i : ι) (σ : Threads ι (SharedToken ι) (Thread Ω)) (_ : SharedToken ι) (t : Thread Ω) : Prop :=
  ∀ w old, (σ.loc i).pc = .setWaiters w old → σ.shared.ftx = old → t.pc ≠ .dead →
    ∀ j d, (σ.loc j).pc = .tryCas d .trylock old → old ||| futexWaiters = old

/-! ### What a step does to the word -/

variable [DecidableEq ι] [DecidableEq Ω]

/-- The word changes as a tenure begins or ends, or as a thread sets `FUTEX_WAITERS`. -/
theorem Act.word (hinj : ∀ i j, (tid i).val = (tid j).val → i = j) (hG : σ.shared.Good tid)
    (hI : (σ.loc i).Good i σ.shared) (h : Act tid i σ s t) :
    s.ftx = σ.shared.ftx ∨ σ.shared.holder = some i ∨ s.holder = some i ∨
      ∃ w, (σ.loc i).pc = .setWaiters w σ.shared.ftx ∧ t.pc ≠ .dead ∧ s = σ.shared.setWaiters := by
  cases h with
  | acquires d caller old hpc hftx => exact .inr (.inr (.inl rfl))
  | releases d hpc => exact .inr (.inl (hI.owns (by rw [hpc]; rfl)))
  | setsWaiters w old hpc hftx => exact .inr (.inr (.inr ⟨w, hftx ▸ hpc, nofun, rfl⟩))
  | ownerDies woken hpc htid hwoken => exact .inr (.inl (hG.holder_eq_some hinj htid))
  | _ => exact .inl rfl

/-- Who is about to compare the word has just loaded it. -/
theorem Act.loads {d : Ω} {caller : Caller} {old : Ftx} (h : Act tid i σ s t) (ht : t.pc = .tryCas d caller old) :
    s.ftx = old := by
  cases h with
  | load _ h =>
    cases h with
    | tryFree d' caller' hpc htid =>
      cases ht
      rfl
    | tryBusy d' caller' hpc htid hown => exact absurd ht (caller'.busy_ne_tryCas d' d caller old)
    | tryCasFails d' caller' old' hpc hftx => exact absurd ht (caller'.busy_ne_tryCas d' d caller old)
    | setWaitersFails w old' hpc hftx => exact absurd ht (w.restart_ne_tryCas d caller old)
    | waitChanged w new hpc hftx => exact absurd ht (w.restart_ne_tryCas d caller old)
    | wakes w hpc ha => exact absurd ht (w.restart_ne_tryCas d caller old)
    | _ => cases ht
  | stirs w hpc => cases hpc.symm.trans ht
  | shutsDown r hpc => cases hpc.symm.trans ht
  | _ => cases ht

/-- A trylock reports `EBUSY` if it has loaded another's word, or if the word has changed. -/
theorem Act.busy (h : Act tid i σ s t) (hin : (σ.loc i).pc.inTrylock = true)
    (ht : t.pc = .idle (some (.failed .ebusy))) :
    (ftxTid σ.shared.ftx ≠ 0 ∧ ftxTid σ.shared.ftx ≠ (tid i).val) ∨
      ∃ d old, (σ.loc i).pc = .tryCas d .trylock old ∧ σ.shared.ftx ≠ old := by
  have hout : ∀ pc, (σ.loc i).pc = pc → pc.inTrylock = true := fun pc hpc => hpc ▸ hin
  cases h with
  | load _ h =>
    cases h with
    | tryBusy d caller hpc htid hown => exact .inl ⟨htid, hown⟩
    | tryCasFails d caller old hpc hftx =>
      cases caller with
      | trylock => exact .inr ⟨d, old, hpc, hftx⟩
      | timedlock old' => cases ht
    | waitFails w new e hpc he => cases hout _ hpc
    | wakes w hpc ha => cases hout _ hpc
    | waitChanged w new hpc hftx => cases hout _ hpc
    | setWaitersFails w old hpc hftx => cases hout _ hpc
    | _ => cases ht
  | givesUp w e hpc he => cases hout _ hpc
  | stirs w hpc => cases hout _ hpc
  | shutsDown r hpc => cases hout _ hpc
  | _ => cases ht

/-! ### The owner lives -/

theorem Act.dead (hG : σ.shared.Good tid) (h : Act tid i σ s t) (ht : t.pc = .dead) : s.holder ≠ some i := by
  cases h with
  | load _ h =>
    cases h with
    | tryBusy d caller hpc htid hown => cases caller <;> cases ht
    | tryCasFails d caller old hpc hftx => cases caller <;> cases ht
    | setWaitersFails w old hpc hftx => cases w <;> cases ht
    | waitChanged w new hpc hftx => cases w <;> cases ht
    | wakes w hpc ha => cases w <;> cases ht
    | _ => cases ht
  | stirs w hpc => cases hpc.symm.trans ht
  | shutsDown r hpc => cases hpc.symm.trans ht
  | ownerDies woken hpc htid hwoken =>
    rw [SharedToken.wakeOne_eq]
    exact nofun
  | otherDies hpc htid => exact fun hs => htid (hG.held i hs)
  | _ => cases ht

omit [DecidableEq ι] in
/-- Another's step makes nobody the owner. -/
theorem Effect.holder (h : Effect tid i s s') (hj : j ≠ i) (hs : s'.holder = some j) : s.holder = some j := by
  cases h with
  | same h _ _ => exact h.holder.symm.trans hs
  | acquires _ => exact absurd (Option.some.inj hs).symm hj
  | counts _ _ => exact hs
  | releases _ => cases hs
  | dies _ hsame _ => cases hsame.holder.symm.trans hs

/-- The owner lives. -/
theorem stable_alive (hinj : ∀ i j, (tid i).val = (tid j).val → i = j) :
    Threads.Stable (fun s loc => s = .fresh ∧ ∀ i, loc i = .fresh Ω) (Act tid) (·.Good tid)
      fun i s t => t.Good i s ∧ (s.holder = some i → t.pc ≠ .dead) where
  init s loc h := by
    obtain ⟨hG, hI⟩ := (stable (Ω := Ω) hinj).init s loc h
    refine ⟨hG, fun i => ⟨hI i, fun hs => ?_⟩⟩
    rw [h.1] at hs
    cases hs
  own i σ s t h hG hI :=
    ⟨(h.effect hinj hG hI.1).good hG, h.good hG hI.1, fun hs ht => h.dead hG ht hs⟩
  others i j σ s t hj h hG hI hJ :=
    ⟨(stable hinj).others i j σ s t hj h hG hI.1 hJ.1, fun hs => hJ.2 ((h.effect hinj hG hI.1).holder hj hs)⟩

/-! ### Runs -/

omit [DecidableEq ι] [DecidableEq Ω] in
theorem instants_cons (h : (σ.loc i).pc.inTrylock = true) : instants i (σ :: past) = σ :: instants i past :=
  List.takeWhile_cons_of_pos h

/-- The word is the one that the trylock has loaded, or since its call began another has had
the lock. -/
def ComparesWith (i : ι) (σ : Threads ι (SharedToken ι) (Thread Ω))
    (past : List (Threads ι (SharedToken ι) (Thread Ω))) : Prop :=
  ∀ d old, (σ.loc i).pc = .tryCas d .trylock old →
    σ.shared.ftx = old ∨ ∃ ρ ∈ instants i (σ :: past), HeldByOther i ρ

/-- A step of any thread keeps it. -/
theorem ComparesWith.step (hinj : ∀ i j, (tid i).val = (tid j).val → i = j) (hG : σ.shared.Good tid)
    (hJ : (σ.loc j).Good j σ.shared) (h : Act tid j σ τ.shared t) (hloc : τ.loc = Function.update σ.loc j t)
    (hC : Undisturbed j σ τ.shared t) (hi : ComparesWith i σ past) : ComparesWith i τ (σ :: past) := by
  intro d old hpc
  rw [instants_cons (by rw [hpc]; rfl)]
  rw [hloc] at hpc
  by_cases hj : j = i
  · subst hj
    rw [Function.update_self] at hpc
    exact .inl (h.loads hpc)
  · rw [Function.update_of_ne (Ne.symm hj)] at hpc
    rcases hi d old hpc with hftx | ⟨ρ, hρ, hheld⟩
    · have hσ : σ ∈ instants i (σ :: past) := by
        rw [instants_cons (by rw [hpc]; rfl)]
        exact List.mem_cons_self
      rcases h.word hinj hG hJ with hs | hs | hs | ⟨w, hw, ht, hs⟩
      · exact .inl (hs.trans hftx)
      -- a tenure has ended: there was an owner before the step
      · exact .inr ⟨σ, List.mem_cons_of_mem _ hσ, j, hj, hs⟩
      -- one has begun: there is one after it
      · exact .inr ⟨τ, List.mem_cons_self, j, hj, hs⟩
      · subst hftx
        rw [hs]
        exact .inl (hC w _ hw rfl ht i d hpc)
    · exact .inr ⟨ρ, List.mem_cons_of_mem _ hρ, hheld⟩

/-- What the runs that meet the condition reach. -/
theorem alive_of_reach (hinj : ∀ i j, (tid i).val = (tid j).val → i = j)
    (hσ : (runsIf tid Undisturbed).Reach σ) : σ.shared.Good tid ∧
      ∀ i, (σ.loc i).Good i σ.shared ∧ (σ.shared.holder = some i → (σ.loc i).pc ≠ .dead) := by
  have hσ' : (runs tid).Reach σ := by
    apply TransitionSystem.reach_mono _ _ hσ
    · exact fun _ h => h
    · rintro σ τ ⟨i, t, h, hloc⟩
      exact ⟨i, t, h.1, hloc⟩
  exact (stable_alive hinj).isInvariant.reach hσ'

/-- Over a run. -/
theorem comparesWith (hinj : ∀ i j, (tid i).val = (tid j).val → i = j)
    (h : (runsIf tid Undisturbed).IsRun (σ :: past)) (i : ι) : ComparesWith i σ past := by
  induction past generalizing σ with
  | nil =>
    obtain ⟨hi⟩ := h
    intro d old hpc
    rw [hi.2 i] at hpc
    cases hpc
  | cons ρ past ih =>
    obtain _ | ⟨hρ, hst⟩ := h
    obtain ⟨j, t, hact, hloc⟩ := hst
    obtain ⟨hG, hI⟩ := alive_of_reach hinj (hρ.reach ρ List.mem_cons_self)
    exact (ih hρ).step hinj hG (hI j).1 hact.1 hloc hact.2

omit [DecidableEq ι] [DecidableEq Ω] in
/-- Who has a word with another's id is told of an owner. -/
theorem SharedToken.Good.heldByOther (hG : σ.shared.Good tid) (h0 : ftxTid σ.shared.ftx ≠ 0)
    (hi : ftxTid σ.shared.ftx ≠ (tid i).val) : HeldByOther i σ := by
  rcases hs : σ.shared.holder with _ | j
  · exact absurd (hG.free hs) h0
  · refine ⟨j, fun hj => hi ?_, hs⟩
    rw [← hj]
    exact hG.held j hs

/-- A trylock reports `EBUSY` only if the lock has been held. -/
theorem busy_only_if_held (hinj : ∀ i j, (tid i).val = (tid j).val → i = j)
    (h : (runsIf tid Undisturbed).IsRun (τ :: past)) : BusyOnlyIfHeld τ past := by
  intro i hne hpc
  obtain _ | ⟨hσ, hst⟩ := h
  · exact absurd rfl hne
  rename_i σ past
  obtain ⟨j, t, hact, hloc⟩ := hst
  have hin : (σ.loc i).pc.inTrylock = true := by
    by_contra hin
    exact hne (List.takeWhile_cons_of_neg hin)
  -- the step that returns is its own
  have hj : j = i := by
    by_contra hj
    rw [hloc, Function.update_of_ne (Ne.symm hj)] at hpc
    rw [hpc] at hin
    cases hin
  subst hj
  rw [hloc, Function.update_self] at hpc
  have hheld : ∃ ρ ∈ instants j (σ :: past), HeldByOther j ρ := by
    rcases hact.1.busy hin hpc with ⟨h0, hown⟩ | ⟨d, old, hcas, hftx⟩
    · have hG := (alive_of_reach hinj (hσ.reach σ List.mem_cons_self)).1
      refine ⟨σ, ?_, hG.heldByOther h0 hown⟩
      rw [instants_cons hin]
      exact List.mem_cons_self
    · exact (comparesWith hinj hσ j d old hcas).resolve_left hftx
  obtain ⟨ρ, hρ, k, hk, hhold⟩ := hheld
  have hI := (alive_of_reach hinj (hσ.reach ρ ((List.takeWhile_subset _) hρ))).2 k
  exact ⟨ρ, hρ, k, hk, hhold, hI.2 hhold⟩

/-! ### Two threads -/

/-- The second thread takes the lock between the load and the compare-and-swap of the first. -/
theorem busy_only_if_held_two : ∃ τ past, (runsIf (Ω := Unit) tidTwo Undisturbed).IsRun (τ :: past) ∧
    instants false past ≠ [] ∧ (τ.loc false).pc = .idle (some (.failed .ebusy)) ∧ BusyOnlyIfHeld τ past := by
  have h0 : (runsIf tidTwo Undisturbed).IsRun [⟨.fresh, fun _ => .fresh Unit⟩] := .init ⟨rfl, fun _ => rfl⟩
  have h1 := Threads.isRun_act h0 false ⟨.load _ (.callTrylock none () rfl rfl), nofun⟩
  have h2 := Threads.isRun_act h1 false ⟨.load _ (.tryShutdown () .trylock rfl), nofun⟩
  have h3 := Threads.isRun_act h2 false ⟨.load _ (.tryFree () .trylock rfl (by decide)), nofun⟩
  have h4 := Threads.isRun_act h3 true ⟨.load _ (.callTrylock none () rfl rfl), nofun⟩
  have h5 := Threads.isRun_act h4 true ⟨.load _ (.tryShutdown () .trylock rfl), nofun⟩
  have h6 := Threads.isRun_act h5 true ⟨.load _ (.tryFree () .trylock rfl (by decide)), nofun⟩
  have h7 := Threads.isRun_act h6 true ⟨.acquires () .trylock _ rfl rfl, nofun⟩
  have h8 := Threads.isRun_act h7 false ⟨.load _ (.tryCasFails () .trylock _ rfl (by decide)), nofun⟩
  exact ⟨_, _, h8, nofun, rfl, busy_only_if_held (by decide) h8⟩

/-- The first thread loads the word as it is free, the second one waits for an owner and sets
`FUTEX_WAITERS`, and the first is told `EBUSY`. -/
theorem not_busy_only_if_held : ∃ τ past, (runs (Ω := Unit) tidTwo).IsRun (τ :: past) ∧ ¬BusyOnlyIfHeld τ past := by
  have h0 : (runs tidTwo).IsRun [⟨.fresh, fun _ => .fresh Unit⟩] := .init ⟨rfl, fun _ => rfl⟩
  have h1 := Threads.isRun_act h0 false (.load _ (.callTrylock none () rfl rfl))
  have h2 := Threads.isRun_act h1 false (.load _ (.tryShutdown () .trylock rfl))
  have h3 := Threads.isRun_act h2 false (.load _ (.tryFree () .trylock rfl (by decide)))
  have h4 := Threads.isRun_act h3 true (.load _ (.callWaitLocked none rfl))
  have h5 := Threads.isRun_act h4 true (.load _ (.lockedNot rfl (by decide)))
  have h6 := Threads.isRun_act h5 true (.load _ (.waitShutdown .locked _ rfl))
  have h7 := Threads.isRun_act h6 true (.setsWaiters .locked _ rfl rfl)
  have h8 := Threads.isRun_act h7 false (.load _ (.tryCasFails () .trylock _ rfl (by decide)))
  refine ⟨_, _, h8, fun h => ?_⟩
  obtain ⟨σ, hσ, j, -, hj, -⟩ := h false nofun rfl
  have hmem := (List.takeWhile_subset _) hσ
  simp only [List.mem_cons, List.not_mem_nil, or_false] at hmem
  rcases hmem with rfl | rfl | rfl | rfl | rfl | rfl | rfl | rfl <;> cases hj

end Deadman

end AlephZero
