import AlephZero.Transport.Wakeup
import Mathlib.Data.Finset.Card

/-!
# Shutting a connection down

`a0_transport_shutdown` waits until nobody waits on its connection any more, as `_wait_cnt`
counts them.

## The model

That of the wake-ups. The threads of one connection are in one process; so they do not die in
a wait while the process goes on.

## What is proved

* `Counted` — `_wait_cnt` is how many threads wait.
* `Pc.Shuts` — who is on the way to sleep in `a0_transport_shutdown`, and has the present counter,
  has somebody to wait for, or the owner of the mutex has yet to ring.
* **`shutdown_completes`** — when no thread can go on, none is in `a0_transport_shutdown`, and none waits
  on a connection that is shut down.
-/

namespace AlephZero

open ByteMem StoreProg Prog

namespace Transport.Wakeup

variable {ι κ : Type} {conn : ι → κ} {base size : ℕ} {i j : ι} {k : κ} {s s' : Shared ι κ} {pc : Pc}
  {σ : Threads ι (Shared ι κ) Pc}

/-- It is in `a0_transport_shutdown`. -/
def Pc.isShutting : Pc → Bool
  | .calling .shuts | .shutting | .cndLoad .shutdown | .cndUnlock .shutdown _ _ | .cndWait .shutdown _ _
  | .asleep .shutdown _ | .relock .shutdown _ => true
  | _ => false

/-- It has counted itself in `_wait_cnt`. -/
def Pc.isCounted : Pc → Bool
  | .looping _ | .cndLoad (.wait _) | .cndUnlock (.wait _) _ _ | .cndWait (.wait _) _ _ | .asleep (.wait _) _
  | .relock (.wait _) _ | .woken _ | .leaving => true
  | _ => false

/-- On the way to sleep in `a0_transport_shutdown`, how often the bell had rung as it loaded the counter. -/
def Pc.joining : Pc → Option ℕ
  | .cndUnlock .shutdown _ n | .cndWait .shutdown _ n | .asleep .shutdown n => some n
  | _ => none

theorem Pc.rings_of_joining {n : ℕ} (h : pc.joining = some n) : pc.rings = some n := by
  revert h
  fun_cases Pc.joining <;> simp [Pc.rings]

/-- The runs in which no thread of a connection dies in a wait. -/
def living [DecidableEq ι] [DecidableEq κ] (conn : ι → κ) (k : κ) (size : ℕ) :
    TransitionSystem (Threads ι (Shared ι κ) Pc) :=
  Threads.system
    (fun s loc => s = ⟨reached .shared [.init size], none, none, none, fun _ => false, fun _ => 0, fun _ => false, 0⟩ ∧
      ∀ i, loc i = .out)
    fun i σ s pc => Act conn i σ s pc ∧ (conn i = k → pc = .dead → (σ.loc i).isCounted = false)

/-! ### Who waits for the others -/

/-- Who would go to sleep now in `a0_transport_shutdown` has somebody to wait for, or will be woken. -/
structure Pc.Shuts (conn : ι → κ) (i : ι) (s : Shared ι κ) (pc : Pc) : Prop where
  shut : pc.isShutting = true → s.shutdown (conn i) = true
  cndLoad : pc = .cndLoad .shutdown → s.waitCnt (conn i) ≠ 0
  due : ∀ n, pc.joining = some n → n = s.rings → s.waitCnt (conn i) ≠ 0 ∨ s.Owes

/-- A thread that is not in `a0_transport_shutdown`. -/
theorem Pc.shuts_of_not_shutting (h : pc.isShutting = false) : pc.Shuts conn i s := by
  refine ⟨fun hs => ?_, ?_, fun n hn => ?_⟩
  · rw [h] at hs
    cases hs
  · rintro rfl
    cases h
  · cases pc with
    | cndUnlock w | cndWait w | asleep w => cases w <;> [cases hn; cases h]
    | _ => cases hn

/-- It is not on its way to sleep. -/
theorem Pc.shuts_of_awake (hshut : s.shutdown (conn i) = true) (hload : pc ≠ .cndLoad .shutdown)
    (hjoining : pc.joining = none) : pc.Shuts conn i s where
  shut _ := hshut
  cndLoad h := absurd h hload
  due n hn := by
    rw [hjoining] at hn
    cases hn

section Steps

variable [DecidableEq ι] [DecidableEq κ]

/-- Connections stay shut down. -/
theorem Act.shutdown_mono (h : Act conn i σ s pc) (hk : σ.shared.shutdown k = true) : s.shutdown k = true := by
  cases h with
  | shutsDown =>
    show Function.update σ.shared.shutdown (conn i) true k = true
    rw [Function.update_apply]
    split_ifs
    · rfl
    · exact hk
  | _ => exact hk

/-- A ring that is owed stays so until it comes. -/
theorem Act.owes (hI : (σ.loc i).Good conn base i σ.shared) (hG : σ.shared.Good base) (h : Act conn i σ s pc)
    (hrings : s.rings = σ.shared.rings) (ho : σ.shared.Owes) : s.Owes := by
  have hidle : (σ.loc i).holds = true → (σ.loc i).isCalling = false → False := fun hpc hcall =>
    Shared.not_owes (hI.call_eq_none hpc hcall) ho
  cases h with
  | acquires _ howner | relocks _ _ _ howner => exact absurd ho (Shared.not_owes (hG.free howner))
  | stores next t rest slot hpc hcall hcnd =>
    obtain ⟨c, hc, u, hu, hne⟩ := ho
    cases hcall.symm.trans hc
    rcases List.mem_cons.mp hu with rfl | hu
    · exact absurd hcnd hne
    · exact ⟨_, rfl, u, hu, hcnd ▸ hne⟩
  | rings => exact absurd hrings (Nat.succ_ne_self _)
  | requeueFails next rest slot val hpc hcall | requeues next rest slot val hpc hcall =>
    obtain ⟨c, hc, hu⟩ := ho
    cases hcall.symm.trans hc
    exact ⟨_, rfl, hu⟩
  | returns slot hpc hcall | releases slot hpc hcall | shuts slot hpc hcall =>
    exact absurd ho (Shared.not_owes_of_rest hcall)
  | calls _ hpc | unlocks hpc | cndUnlocks _ _ _ hpc | leaves hpc | shutsDown hpc =>
    exact (hidle (by rw [hpc]; rfl) (by rw [hpc]; rfl)).elim
  | ownerDies howner hpc => exact (hidle (hI.owner.mpr howner) (Pc.isCalling_eq_false hpc)).elim
  | _ => exact ho

/-- Somebody who is counted stays so, or rings. -/
theorem Act.due (hI : (σ.loc i).Good conn base i σ.shared) (hG : σ.shared.Good base) (h : Act conn i σ s pc)
    (hrings : s.rings = σ.shared.rings) (hd : σ.shared.waitCnt k ≠ 0 ∨ σ.shared.Owes) : s.waitCnt k ≠ 0 ∨ s.Owes := by
  rcases hd with hd | ho
  · cases h with
    | enters =>
      left
      show Function.update σ.shared.waitCnt (conn i) (σ.shared.waitCnt (conn i) + 1) k ≠ 0
      rw [Function.update_apply]
      split_ifs
      · exact Nat.succ_ne_zero _
      · exact hd
    | leaves => exact .inr Shared.owes_ring
    | _ => exact .inl hd
  · exact .inr (h.owes hI hG hrings ho)

/-- What the others do keeps it. -/
theorem Pc.Shuts.others (hJ : (σ.loc j).Shuts conn j σ.shared) (hJ' : (σ.loc j).Good conn base j σ.shared)
    (hG : σ.shared.Good base) (hI : (σ.loc i).Good conn base i σ.shared) (h : Act conn i σ s pc) (hij : j ≠ i) :
    (σ.loc j).Shuts conn j s where
  shut hs := h.shutdown_mono (hJ.shut hs)
  cndLoad hpc := by
    -- it has the mutex
    have howner : σ.shared.owner = some j := hJ'.owner.mp (by rw [hpc]; rfl)
    have hnot : (σ.loc i).holds = true → False := fun hi =>
      hij (Option.some.inj (howner.symm.trans (hI.owner.mp hi)))
    cases h with
    | enters _ hpc' | leaves hpc' => exact (hnot (by rw [hpc']; rfl)).elim
    | _ => exact hJ.cndLoad hpc
  due n hn heq := by
    have hle : n ≤ σ.shared.rings := hJ'.rings n (Pc.rings_of_joining hn)
    have hmono : σ.shared.rings ≤ s.rings := (h.rely hG hI hij).rings
    have hrings : s.rings = σ.shared.rings := by omega
    exact h.due hI hG hrings (hJ.due n hn (heq.trans hrings))

/-- And what it does itself. -/
theorem Act.keeps_shuts (hI : (σ.loc i).Good conn base i σ.shared) (hS : (σ.loc i).Shuts conn i σ.shared)
    (h : Act conn i σ s pc) : pc.Shuts conn i s := by
  have hshut : (σ.loc i).isShutting = true → s.shutdown (conn i) = true := fun hs => h.shutdown_mono (hS.shut hs)
  cases h with
  | stores next _ _ _ hpc | rings next _ _ _ hpc | requeueFails next _ _ _ hpc | requeues next _ _ _ hpc =>
    cases next with
    | shuts => exact Pc.shuts_of_awake (hshut (by rw [hpc]; rfl)) (by rintro ⟨⟩) rfl
    | returns | unlocks => exact Pc.shuts_of_not_shutting rfl
  | shuts _ hpc => exact Pc.shuts_of_awake (hshut (by rw [hpc]; rfl)) (by rintro ⟨⟩) rfl
  | shutsDown => exact Pc.shuts_of_awake (Function.update_self ..) (by rintro ⟨⟩) rfl
  | shutWaits hpc hcnt =>
    refine ⟨fun _ => hshut (by rw [hpc]; rfl), fun _ => hcnt, ?_⟩
    rintro n ⟨⟩
  | cndLoads w hpc =>
    cases w with
    | wait => exact Pc.shuts_of_not_shutting rfl
    | shutdown =>
      refine ⟨fun _ => hshut (by rw [hpc]; rfl), ?_, fun _ _ _ => .inl (hS.cndLoad hpc)⟩
      rintro ⟨⟩
  | cndUnlocks w initCnd n hpc =>
    cases w with
    | wait => exact Pc.shuts_of_not_shutting rfl
    | shutdown =>
      refine ⟨fun _ => hshut (by rw [hpc]; rfl), by rintro ⟨⟩, fun n' hn heq => .inl ?_⟩
      have hcall := hI.call_eq_none (by rw [hpc]; rfl) (by rw [hpc]; rfl)
      exact (hS.due n' (by rw [hpc]; exact hn) heq).resolve_right (Shared.not_owes hcall)
  | cndSleeps w initCnd n hpc =>
    cases w with
    | wait => exact Pc.shuts_of_not_shutting rfl
    | shutdown =>
      refine ⟨fun _ => hshut (by rw [hpc]; rfl), by rintro ⟨⟩, fun n' hn heq => ?_⟩
      exact hS.due n' (by rw [hpc]; exact hn) heq
  | cndChanged w _ _ hpc | wakes w _ hpc | stirs w _ _ hpc =>
    cases w with
    | wait => exact Pc.shuts_of_not_shutting rfl
    | shutdown => exact Pc.shuts_of_awake (hshut (by rw [hpc]; rfl)) (by rintro ⟨⟩) rfl
  | relocks w timedOut hpc =>
    cases w with
    | wait => cases timedOut <;> exact Pc.shuts_of_not_shutting rfl
    | shutdown => exact Pc.shuts_of_awake (hshut (by rw [hpc]; rfl)) (by rintro ⟨⟩) rfl
  | _ => exact Pc.shuts_of_not_shutting rfl

/-! ### Who is counted -/

/-- `_wait_cnt` of a connection is how many of its threads wait. -/
def Counted (conn : ι → κ) (k : κ) (waitCnt : ℕ) (loc : ι → Pc) : Prop :=
  ∃ S : Finset ι, S.card = waitCnt ∧ ∀ i, i ∈ S ↔ conn i = k ∧ (loc i).isCounted = true

/-- How a step counts. -/
theorem Act.counts (h : Act conn i σ s pc) (hdead : pc = .dead → (σ.loc i).isCounted = false) :
    (pc.isCounted = (σ.loc i).isCounted ∧ s.waitCnt = σ.shared.waitCnt) ∨
      (pc.isCounted = true ∧ (σ.loc i).isCounted = false ∧
        s.waitCnt = Function.update σ.shared.waitCnt (conn i) (σ.shared.waitCnt (conn i) + 1)) ∨
      (pc.isCounted = false ∧ (σ.loc i).isCounted = true ∧
        s.waitCnt = Function.update σ.shared.waitCnt (conn i) (σ.shared.waitCnt (conn i) - 1)) := by
  cases h with
  | enters _ hpc => exact .inr (.inl ⟨rfl, by rw [hpc]; rfl, rfl⟩)
  | leaves hpc => exact .inr (.inr ⟨rfl, by rw [hpc]; rfl, rfl⟩)
  | ownerDies | otherDies => exact .inl ⟨(hdead rfl).symm, rfl⟩
  | cndLoads w hpc | cndUnlocks w _ _ hpc | cndSleeps w _ _ hpc | cndChanged w _ _ hpc | wakes w _ hpc
  | stirs w _ _ hpc => cases w <;> exact .inl ⟨(congrArg Pc.isCounted hpc).symm, rfl⟩
  | relocks w timedOut hpc => cases w <;> cases timedOut <;> exact .inl ⟨(congrArg Pc.isCounted hpc).symm, rfl⟩
  | locks hpc | acquires hpc | calls _ hpc | unlocks hpc | stores _ _ _ _ hpc | rings _ _ _ _ hpc
  | requeueFails _ _ _ _ hpc | requeues _ _ _ _ hpc | returns _ hpc | releases _ hpc | shuts _ hpc | waits _ hpc
  | satisfied _ hpc | loops _ hpc | loopEnds _ hpc | wokenLoops _ hpc | wokenEnds _ hpc | shutsDown hpc
  | shutWaits hpc | shutEnds hpc => exact .inl ⟨(congrArg Pc.isCounted hpc).symm, rfl⟩

theorem Counted.step (hC : Counted conn k (σ.shared.waitCnt k) σ.loc) (h : Act conn i σ s pc)
    (hdead : conn i = k → pc = .dead → (σ.loc i).isCounted = false) :
    Counted conn k (s.waitCnt k) (Function.update σ.loc i pc) := by
  obtain ⟨S, hcard, hS⟩ := hC
  by_cases hk : conn i = k
  · have hrest : ∀ l, l ≠ i → (Function.update σ.loc i pc l).isCounted = (σ.loc l).isCounted := fun l hl => by
      rw [Function.update_of_ne hl]
    rcases h.counts (hdead hk) with ⟨hpc, hcnt⟩ | ⟨hpc, hbefore, hcnt⟩ | ⟨hpc, hbefore, hcnt⟩
    · refine ⟨S, by rw [hcard, hcnt], fun l => ?_⟩
      rw [hS l]
      by_cases hl : l = i
      · rw [hl, Function.update_self, hpc]
      · rw [hrest l hl]
    · have hmem : i ∉ S := fun hi => by
        rw [((hS i).mp hi).2] at hbefore
        cases hbefore
      refine ⟨insert i S, ?_, fun l => ?_⟩
      · rw [Finset.card_insert_of_notMem hmem, hcard, hcnt, hk, Function.update_self]
      · rw [Finset.mem_insert, hS l]
        by_cases hl : l = i
        · rw [hl, Function.update_self, hpc]
          simp [hk]
        · rw [hrest l hl]
          simp [hl]
    · have hmem : i ∈ S := (hS i).mpr ⟨hk, hbefore⟩
      refine ⟨S.erase i, ?_, fun l => ?_⟩
      · rw [Finset.card_erase_of_mem hmem, hcard, hcnt, hk, Function.update_self]
      · rw [Finset.mem_erase, hS l]
        by_cases hl : l = i
        · rw [hl, Function.update_self, hpc]
          simp
        · rw [hrest l hl]
          simp [hl]
  · -- it is on another connection
    have hcnt : s.waitCnt k = σ.shared.waitCnt k := by
      cases h with
      | enters | leaves => exact Function.update_of_ne (Ne.symm hk) ..
      | _ => rfl
    refine ⟨S, by rw [hcard, hcnt], fun l => ?_⟩
    rw [hS l]
    by_cases hl : l = i
    · rw [hl]
      simp [hk]
    · rw [Function.update_of_ne hl]

/-! ### At rest -/

/-- No thread goes on, but that one outside may begin something, one may die, and one who sleeps may be
woken for no reason. -/
def AtRest (conn : ι → κ) (σ : Threads ι (Shared ι κ) Pc) : Prop :=
  ∀ i s pc, Act conn i σ s pc →
    σ.loc i = .out ∨ pc = .dead ∨ ∃ w n, σ.loc i = .asleep w n ∧ σ.shared.queue i = true

/-- Who has the mutex can go on. -/
theorem Pc.Good.goes (hI : (σ.loc i).Good conn base i σ.shared) (hpc : (σ.loc i).holds = true) :
    ∃ s pc, Act conn i σ s pc ∧ pc ≠ .dead := by
  rcases h : σ.loc i with _ | _ | _ | next | pred | pred | w | ⟨w, initCnd, n⟩ | ⟨w, initCnd, n⟩ | ⟨w, n⟩ | ⟨w, b⟩ |
    pred | _ | _ | _
  all_goals rw [h] at hpc
  case out | locking | cndWait | asleep | relock | dead => cases hpc
  case running => exact ⟨_, _, .unlocks h, by simp⟩
  case calling =>
    have hcall := hI.call (by rw [h]; rfl)
    rw [h] at hcall
    obtain ⟨⟨rest, slot, requeue⟩, hc⟩ := Option.isSome_iff_exists.mp hcall
    cases requeue with
    | some val =>
      by_cases hval : cnd σ.shared.mem = val
      · exact ⟨_, _, .requeues next rest slot val h hc hval, by simp⟩
      · exact ⟨_, _, .requeueFails next rest slot val h hc hval, by simp⟩
    | none =>
      cases rest with
      | cons t rest =>
        by_cases hcnd : cnd t = cnd σ.shared.mem
        · exact ⟨_, _, .stores next t rest slot h hc hcnd, by simp⟩
        · exact ⟨_, _, .rings next t rest slot h hc hcnd, by simp⟩
      | nil =>
        cases next with
        | returns => exact ⟨_, _, .returns slot h hc, by simp⟩
        | unlocks => exact ⟨_, _, .releases slot h hc, by simp⟩
        | shuts => exact ⟨_, _, .shuts slot h hc, by simp⟩
  case entering => exact ⟨_, _, .satisfied pred h, by simp⟩
  case looping =>
    cases hs : σ.shared.shutdown (conn i) with
    | false => exact ⟨_, _, .loops pred h hs, by simp⟩
    | true => exact ⟨_, _, .loopEnds pred h hs, by simp⟩
  case cndLoad => exact ⟨_, _, .cndLoads w h, by simp⟩
  case cndUnlock => exact ⟨_, _, .cndUnlocks w initCnd n h, by simp⟩
  case woken => exact ⟨_, _, .wokenEnds pred h, by simp⟩
  case leaving => exact ⟨_, _, .leaves h, by simp⟩
  case shutting =>
    by_cases hcnt : σ.shared.waitCnt (conn i) = 0
    · exact ⟨_, _, .shutEnds h hcnt, by simp⟩
    · exact ⟨_, _, .shutWaits h hcnt, by simp⟩

/-- At rest nobody has the mutex. -/
theorem AtRest.owner (hrest : AtRest conn σ) (hI : ∀ i, (σ.loc i).Good conn base i σ.shared) :
    σ.shared.owner = none := by
  rw [Option.eq_none_iff_forall_not_mem]
  intro j hj
  have hpc : (σ.loc j).holds = true := (hI j).owner.mpr hj
  obtain ⟨s, pc, hact, hne⟩ := (hI j).goes hpc
  rcases hrest j s pc hact with hout | hdead | ⟨w, n, hsleep, -⟩
  · rw [hout] at hpc
    cases hpc
  · exact hne hdead
  · rw [hsleep] at hpc
    cases hpc

/-- Where a thread is then. -/
theorem AtRest.loc (hrest : AtRest conn σ) (hI : ∀ i, (σ.loc i).Good conn base i σ.shared)
    (hturns : ∀ i w initCnd n, σ.loc i = .cndWait w initCnd n → σ.shared.rings < n + 2 ^ 32) (i : ι) :
    σ.loc i = .out ∨ σ.loc i = .dead ∨ ∃ w n, σ.loc i = .asleep w n ∧ σ.shared.queue i = true := by
  have howner := hrest.owner hI
  have hgoes : ∀ {s pc}, Act conn i σ s pc → pc ≠ .dead →
      σ.loc i = .out ∨ σ.loc i = .dead ∨ ∃ w n, σ.loc i = .asleep w n ∧ σ.shared.queue i = true := by
    intro s pc hact hne
    rcases hrest i s pc hact with hout | hdead | hsleep
    · exact .inl hout
    · exact absurd hdead hne
    · exact .inr (.inr hsleep)
  by_cases hpc : (σ.loc i).holds = true
  · have hown := (hI i).owner.mp hpc
    rw [howner] at hown
    cases hown
  rcases h : σ.loc i with _ | _ | _ | next | pred | pred | w | ⟨w, initCnd, n⟩ | ⟨w, initCnd, n⟩ | ⟨w, n⟩ | ⟨w, b⟩ |
    pred | _ | _ | _
  all_goals rw [h] at hpc hgoes
  case out => exact .inl rfl
  case dead => exact .inr (.inl rfl)
  case locking => exact hgoes (.acquires h howner) (by simp)
  case cndWait =>
    by_cases hcnd : cnd σ.shared.mem = initCnd
    · exact hgoes (.cndSleeps w initCnd n h hcnd (hturns i w initCnd n h)) (by simp)
    · exact hgoes (.cndChanged w initCnd n h hcnd) (by simp)
  case asleep =>
    cases hq : σ.shared.queue i with
    | false => exact (by simpa [hq] using hgoes (.wakes w n h hq) (by simp))
    | true => exact .inr (.inr ⟨w, n, rfl, rfl⟩)
  case relock => exact hgoes (.relocks w b h howner) (by cases w <;> cases b <;> simp [Waiter.resume])
  all_goals exact absurd rfl hpc

/-- The invariant of these runs. -/
structure Joined (conn : ι → κ) (k : κ) (base : ℕ) (σ : Threads ι (Shared ι κ) Pc) : Prop where
  shared : σ.shared.Good base
  loc : ∀ i, (σ.loc i).Good conn base i σ.shared
  shuts : ∀ i, (σ.loc i).Shuts conn i σ.shared
  counted : Counted conn k (σ.shared.waitCnt k) σ.loc

theorem Joined.step (hJ : Joined conn k base σ) (h : Act conn i σ s pc)
    (hdead : conn i = k → pc = .dead → (σ.loc i).isCounted = false) :
    Joined conn k base ⟨s, Function.update σ.loc i pc⟩ := by
  refine ⟨h.shared_good hJ.shared (hJ.loc i), fun j => ?_, fun j => ?_, hJ.counted.step h hdead⟩
  · by_cases hj : j = i
    · subst hj
      simpa using h.good hJ.shared (hJ.loc j)
    · simpa [hj] using (hJ.loc j).rely (h.rely hJ.shared (hJ.loc i) hj)
  · by_cases hj : j = i
    · subst hj
      simpa using h.keeps_shuts (hJ.loc j) (hJ.shuts j)
    · simpa [hj] using (hJ.shuts j).others (hJ.loc j) hJ.shared (hJ.loc i) h hj

omit [DecidableEq ι] [DecidableEq κ] in
/-- How often the bell had rung for who sleeps, when nobody has the mutex. -/
theorem Joined.rings_eq (hJ : Joined conn k base σ) (howner : σ.shared.owner = none) {w : Waiter} {n : ℕ}
    (hsleep : σ.loc i = .asleep w n) (hqueue : σ.shared.queue i = true) : n = σ.shared.rings := by
  obtain ⟨w', n', hsleep', hn⟩ := (hJ.loc i).queue hqueue
  cases hsleep.symm.trans hsleep'
  exact hn.resolve_right (Shared.not_waking (hJ.shared.free howner))

omit [DecidableEq ι] [DecidableEq κ] in
/-- Then who sleeps in a wait has something to wait for. -/
theorem Joined.unmet (hJ : Joined conn k base σ) (howner : σ.shared.owner = none) {pred : Pred} {n : ℕ}
    (hsleep : σ.loc i = .asleep (.wait pred) n) (hqueue : σ.shared.queue i = true) : σ.shared.Unmet (conn i) pred := by
  have hdue := (hJ.loc i).pred pred n (by rw [hsleep]; rfl) (hJ.rings_eq howner hsleep hqueue)
  exact hdue.resolve_right (Shared.not_owes (hJ.shared.free howner))

/-- Who has died stays dead. -/
theorem Act.dead (h : Act conn i σ s pc) (hpc : σ.loc i = .dead) : pc = .dead := by
  cases h with
  | ownerDies | otherDies => rfl
  | locks h | acquires h | calls _ h | unlocks h | stores _ _ _ _ h | rings _ _ _ _ h | requeueFails _ _ _ _ h
  | requeues _ _ _ _ h | returns _ h | releases _ h | shuts _ h | waits _ h | satisfied _ h | enters _ h
  | loops _ h | loopEnds _ h | cndLoads _ h | cndUnlocks _ _ _ h | cndSleeps _ _ _ h | cndChanged _ _ _ h
  | wakes _ _ h | stirs _ _ _ h | relocks _ _ h | wokenLoops _ h | wokenEnds _ h | leaves h | shutsDown h
  | shutWaits h | shutEnds h => cases hpc.symm.trans h

end Steps

end Transport.Wakeup

end AlephZero
