import AlephZero.Robust.Invariant

/-!
# Coverage of the robust list

What the kernel finds when the thread dies between two actions.

## What is proved

* `triple_locking` — what the locks have in common.
* **`covered`** — at any instant each mutex whose word has the id of the thread is pending or
  on the list, and between calls exactly these are on the list. Before the head is set up, the
  thread has none.
* `leaves_others` — what another thread has is left alone.
-/

namespace AlephZero

open Code LinkedList

namespace Robust

section Tokens

variable {κ τ δ : Type} {tid : Tid} {stkn : δ → τ} {o : δ → Bool} {W : κ ⊕ τ → Prop} {k : κ} {d : δ}
  {s : State (κ ⊕ τ) δ}

/-- An object that is the owner of its token has it alone. -/
structure Tokens (stkn : δ → τ) (o : δ → Bool) (W : κ ⊕ τ → Prop) : Prop where
  own : ∀ d, o d = true → W (.inr (stkn d))
  sole : ∀ d d', o d = true → o d' = true → stkn d = stkn d' → d = d'

theorem Tokens.gain_mtx (h : Tokens stkn o W) : Tokens stkn o (gain W (.inl k)) :=
  ⟨fun d hd => .inl (h.own d hd), h.sole⟩

theorem Tokens.drop_mtx (h : Tokens stkn o W) : Tokens stkn o (drop W (.inl k)) :=
  ⟨fun d hd => ⟨h.own d hd, nofun⟩, h.sole⟩

/-- In no call. -/
def Idle (tid : Tid) (stkn : δ → τ) (s : State (κ ⊕ τ) δ) : Prop := ∃ o W, Tokens stkn o W ∧ Rest tid o W s

theorem Idle.exact (h : Idle tid stkn s) : Unlisted tid s ∨ Exact tid s := by
  obtain ⟨o, W, -, ⟨hfresh, -⟩ | hat⟩ := h
  · exact .inl hfresh.unlisted
  · obtain ⟨L, hl, hL⟩ := hat.list
    refine .inr ⟨L, hl.walk, hl.nodup, fun i => ?_, inverse_of_back hl.walk hl.back⟩
    rw [hL i, hat.own i]
    exact ⟨And.left, fun hi => ⟨hi, nofun⟩⟩

variable [DecidableEq δ]

theorem Tokens.gain_token (h : Tokens stkn o W) (hW : ¬ W (.inr (stkn d))) :
    Tokens stkn (Function.update o d true) (gain W (.inr (stkn d))) := by
  have hnot : ∀ d', o d' = true → stkn d' ≠ stkn d := fun d' hd' heq => hW (heq ▸ h.own d' hd')
  constructor
  · intro d' hd'
    by_cases hdd : d' = d
    · exact .inr (by rw [hdd])
    · rw [Function.update_of_ne hdd] at hd'
      exact .inl (h.own d' hd')
  · intro d₁ d₂ h₁ h₂ heq
    by_cases hd₁ : d₁ = d <;> by_cases hd₂ : d₂ = d
    · rw [hd₁, hd₂]
    · rw [Function.update_of_ne hd₂] at h₂
      exact absurd (heq.symm.trans (congrArg stkn hd₁)) (hnot d₂ h₂)
    · rw [Function.update_of_ne hd₁] at h₁
      exact absurd (heq.trans (congrArg stkn hd₂)) (hnot d₁ h₁)
    · rw [Function.update_of_ne hd₁] at h₁
      rw [Function.update_of_ne hd₂] at h₂
      exact h.sole d₁ d₂ h₁ h₂ heq

theorem Tokens.drop_token (h : Tokens stkn o W) (hd : o d = true) :
    Tokens stkn (Function.update o d false) (drop W (.inr (stkn d))) := by
  have hkeep : ∀ d', Function.update o d false d' = true → d' ≠ d ∧ o d' = true := by
    intro d' hd'
    by_cases hdd : d' = d
    · rw [hdd, Function.update_self] at hd'
      cases hd'
    · rw [Function.update_of_ne hdd] at hd'
      exact ⟨hdd, hd'⟩
  constructor
  · intro d' hd'
    obtain ⟨hdd, hod⟩ := hkeep d' hd'
    exact ⟨h.own d' hod, fun heq => hdd (h.sole d' d hod hd (Sum.inr.inj heq))⟩
  · exact fun d₁ d₂ h₁ h₂ => h.sole d₁ d₂ (hkeep d₁ h₁).2 (hkeep d₂ h₂).2

end Tokens

variable {ι δ : Type} [DecidableEq ι] {tid : Tid} {m : ι} {o o' : δ → Bool} {W : ι → Prop}

/-! ### Mutexes -/

/-- `a0_mtx_timedlock_robust` -/
theorem triple_mtxTimedlockRobust : Triple (terms ι δ tid) (At tid true o W (.node m) none) (mtxTimedlockRobust tid m)
    fun err => Tried tid o o W m (mtxLockSuccessful err) := by
  refine triple_bind (triple_cas_acquire ftxTid_zero tid.masked) fun r => triple_ite (fun hr => ?_) fun hr => ?_
  · subst hr
    exact triple_pure fun x hx => hx
  · rw [Bool.not_eq_true] at hr
    subst hr
    refine triple_bind triple_lockPi fun err => triple_and fun herr => ?_
    cases err with
    | none => exact triple_lockedResult
    | some e =>
      refine triple_pure fun x hx => ?_
      cases e with
      | eownerdead => exact absurd rfl herr
      | _ => exact hx

/-- `a0_mtx_trylock_impl` -/
theorem triple_mtxTrylockImpl : Triple (terms ι δ tid) (At tid true o W (.node m) none) (mtxTrylockImpl tid m)
    fun err => Tried tid o o W m (mtxLockSuccessful err) := by
  refine triple_bind (triple_casVal tid.masked) fun old => triple_ite (fun hold => ?_) fun hold => ?_
  · refine triple_pure fun x hx => ?_
    rw [decide_eq_true hold] at hx
    exact hx
  rw [decide_eq_false hold]
  refine triple_ite (fun _ => triple_pure fun x hx => hx) fun _ => ?_
  refine triple_bind triple_lockPi fun err => triple_and fun herr => ?_
  cases err with
  | none => exact triple_lockedResult
  | some e =>
    cases e with
    | eownerdead => exact absurd rfl herr
    | eagain => exact triple_pure fun x hx => hx
    | _ => exact triple_pure fun x hx => hx

/-- After a lock. -/
def Locked (tid : Tid) (o o' : δ → Bool) (W : ι → Prop) (m : ι) (s : State ι δ) : Prop :=
  ¬ W m ∧ Rest tid o' (gain W m) s ∨ Rest tid o W s

/-- What the locks have in common. -/
theorem triple_locking {body : Code (State ι δ) (Option Errno)} {k : Option Errno → Code (State ι δ) (Option Errno)}
    (h : Triple (terms ι δ tid) (At tid true o W (.node m) none) body
      fun err => Tried tid o o' W m (mtxLockSuccessful err))
    (hk : ∀ err, Triple (terms ι δ tid) (Locked tid o o' W m) (k err) fun _ => Locked tid o o' W m) :
    Triple (terms ι δ tid) (Rest tid o W) (do
      robustOpStart m
      let err ← body
      if mtxLockSuccessful err then
        robustOpAdd m
      robustOpEnd
      k err) fun _ => Locked tid o o' W m := by
  refine triple_bind triple_robustOpStart fun _ => triple_bind h fun err => triple_ite (fun herr => ?_) fun herr => ?_
  · rw [herr]
    refine triple_and fun hW => triple_bind (triple_robustOpAdd (.inr rfl)) fun _ => ?_
    exact triple_bind triple_robustOpEnd fun _ => triple_pre (hk err) fun x hx => .inl ⟨hW, hx⟩
  · rw [Bool.not_eq_true] at herr
    rw [herr]
    exact triple_bind triple_robustOpEnd fun _ => triple_pre (hk err) fun x hx => .inr hx

/-- `a0_mtx_timedlock` -/
theorem triple_mtxTimedlock : Triple (terms ι δ tid) (Rest tid o W) (mtxTimedlock tid m) fun _ =>
    Locked tid o o W m := triple_locking triple_mtxTimedlockRobust fun _ => triple_pure fun _ hx => hx

/-- `a0_mtx_trylock` -/
theorem triple_mtxTrylock : Triple (terms ι δ tid) (Rest tid o W) (mtxTrylock tid m) fun _ =>
    Locked tid o o W m := triple_locking triple_mtxTrylockImpl fun _ => triple_pure fun _ hx => hx

/-- `a0_mtx_unlock` -/
theorem triple_mtxUnlock : Triple (terms ι δ tid) (Rest tid o W) (mtxUnlock tid m) fun err x =>
    (W m ∧ err = none) ∧ Rest tid o (drop W m) x ∨ (¬ W m ∧ err = some .eperm) ∧ Rest tid o W x := by
  have hload : Triple (terms ι δ tid) (Rest tid o W) (load fun s => s.ftx m) fun val x =>
      (ftxTid val = tid.val ↔ W m) ∧ Rest tid o W x := by
    refine triple_act_of_rely (fun _ _ hx => hx.rely) fun s val t hs hinv hf => ?_
    obtain ⟨rfl, rfl⟩ := hf
    exact ⟨.refl _, ⟨hs.own, hs⟩, hinv⟩
  refine triple_bind hload fun val => triple_and fun hval => triple_ite (fun htid => ?_) fun htid => ?_
  · exact triple_pure fun x hx => .inr ⟨⟨fun hW => htid (hval.mpr hW), rfl⟩, hx⟩
  have hW : W m := hval.mp (not_not.mp htid)
  refine triple_bind triple_robustOpStart fun _ => triple_bind (triple_robustOpDel hW) fun _ => ?_
  refine triple_bind (triple_andFetch_keep fun _ => ftxTid_and_not_ownerDied) fun _ => ?_
  refine triple_bind (triple_cas_release tid.masked ftxTid_zero) fun r => triple_ite (fun hr => ?_) fun hr => ?_
  · rw [Bool.not_eq_true'] at hr
    rw [hr]
    refine triple_bind (triple_unlockPi hW) fun _ => triple_bind triple_robustOpEnd fun _ => triple_pure fun x hx => ?_
    exact .inl ⟨⟨hW, rfl⟩, hx⟩
  · rw [Bool.not_eq_true', Bool.not_eq_false] at hr
    rw [hr]
    refine triple_bind triple_robustOpEnd fun _ => triple_pure fun x hx => ?_
    exact .inl ⟨⟨hW, rfl⟩, hx⟩

/-! ### Deadman mutexes -/

variable [DecidableEq δ] {d : δ}

/-- `a0_deadman_mtx_trylock_impl` -/
theorem triple_deadmanTrylockImpl : Triple (terms ι δ tid) (At tid true o W (.node m) none) (deadmanTrylockImpl tid d m)
    fun err => Tried tid o (Function.update o d true) W m (mtxLockSuccessful err) := by
  refine triple_bind triple_load_any fun shut => triple_ite (fun _ => triple_pure fun x hx => hx) fun _ => ?_
  refine triple_bind triple_load_any fun old => triple_ite (fun hold => ?_) fun _ => ?_
  · refine triple_bind (triple_cas_acquire hold (ftxTid_acquire hold)) fun r => triple_ite (fun hr => ?_) fun hr => ?_
    · rw [hr]
      refine triple_and fun hW => ?_
      refine triple_bind (triple_at_loc (u := fun l => { l with isOwner := Function.update l.isOwner d true })
        (fun l hf ho hp => ⟨hf, by rw [ho], hp⟩) fun i hi => by rw [Option.some.inj hi]) fun _ => ?_
      refine triple_bind triple_load_any fun tkn => triple_bind triple_setTkn fun _ =>
        triple_bind triple_ftxBroadcast fun _ => ?_
      refine triple_pure fun x hx => ?_
      split_ifs
      · exact ⟨hW, hx⟩
      · exact ⟨hW, hx⟩
    · rw [Bool.not_eq_true] at hr
      rw [hr]
      exact triple_pure fun x hx => hx
  · refine triple_pure fun x hx => ?_
    split_ifs
    · exact hx
    · exact hx

/-- `a0_deadman_mtx_timedlock_impl` -/
theorem triple_deadmanTimedlockImpl :
    Triple (terms ι δ tid) (At tid true o W (.node m) none) (deadmanTimedlockImpl tid d m)
    fun err => Tried tid o (Function.update o d true) W m (mtxLockSuccessful err) := by
  refine triple_loop (triple_bind triple_load_any fun old => triple_bind triple_deadmanTrylockImpl fun err => ?_)
  refine triple_ite (fun _ => triple_pure fun x hx => hx) fun herr => ?_
  rw [not_not.mp herr]
  refine triple_bind (triple_cas_same ftxTid_or_waiters) fun r => triple_ite (fun _ => ?_) fun _ =>
    triple_pure fun x hx => hx
  refine triple_bind triple_ftxWait fun err => triple_and fun herr => triple_pure fun x hx => ?_
  split_ifs with hloop
  · exact hx
  · rw [not_or] at hloop
    cases err with
    | none => exact absurd rfl hloop.1
    | some e =>
      cases e with
      | eownerdead => exact absurd rfl herr
      | _ => exact hx

/-- `a0_deadman_mtx_trylock` -/
theorem triple_deadmanTrylock : Triple (terms ι δ tid) (Rest tid o W) (deadmanTrylock tid d m) fun _ =>
    Locked tid o (Function.update o d true) W m := by
  refine triple_bind (triple_load fun x s _ hx => by rw [hx.loc]) fun b => triple_ite (fun _ => ?_) fun _ => ?_
  · exact triple_pure fun x hx => .inr hx.1
  · exact triple_pre (triple_locking triple_deadmanTrylockImpl fun err => triple_pure fun x hx => hx) fun _ hx => hx.1

/-- `a0_deadman_mtx_timedlock` -/
theorem triple_deadmanTimedlock : Triple (terms ι δ tid) (Rest tid o W) (deadmanTimedlock tid d m) fun _ =>
    Locked tid o (Function.update o d true) W m := by
  refine triple_bind (triple_load fun x s _ hx => by rw [hx.loc]) fun b => triple_ite (fun _ => ?_) fun _ => ?_
  · exact triple_pure fun x hx => .inr hx.1
  refine triple_bind (triple_pre triple_setInop fun _ hx => hx.1) fun _ => ?_
  refine triple_locking triple_deadmanTimedlockImpl fun err => triple_bind (Q := fun _ => Locked tid o _ W m)
    (triple_or (triple_and fun hW => ?_) ?_) fun _ => triple_pure fun x hx => hx
  · exact triple_post triple_setInop fun _ x hx => .inl ⟨hW, hx⟩
  · exact triple_post triple_setInop fun _ x hx => .inr hx

/-- `a0_deadman_mtx_unlock` -/
theorem triple_deadmanUnlock (h : o d = true → W m) :
    Triple (terms ι δ tid) (Rest tid o W) (deadmanUnlock d m) fun _ x =>
    o d = true ∧ Rest tid (Function.update o d false) (drop W m) x ∨ Rest tid o W x := by
  refine triple_bind (triple_load fun x s _ hx => by rw [hx.loc]) fun b => triple_ite (fun _ => ?_) fun hb => ?_
  · exact triple_pure fun x hx => .inr hx.1
  refine triple_pre (triple_and (c := o d = true) (A := Rest tid o W) fun ho => ?_) fun x hx => ?_
  · refine triple_bind triple_robustOpStart fun _ => triple_bind (triple_robustOpDel (h ho)) fun _ => ?_
    refine triple_bind (triple_andFetch_clear (fun _ => ftxTid_and_waiters) (h ho)) fun _ => ?_
    refine triple_bind triple_robustOpEnd fun _ => ?_
    refine triple_bind (triple_rest_loc (u := fun l => { l with isOwner := Function.update l.isOwner d false })
      (fun _ ho => ⟨rfl, rfl, by rw [ho]⟩) fun hall => ?_) fun _ => ?_
    · intro d'
      rw [Function.update_apply]
      split_ifs
      · rfl
      · exact hall d'
    · exact triple_bind triple_ftxBroadcast fun _ => triple_pure fun x hx => .inl ⟨ho, hx⟩
  · rw [Bool.not_eq_true', Bool.not_eq_false] at hb
    exact ⟨hx.1.isOwner ▸ hx.2.symm.trans hb, hx.1⟩

/-! ### Sessions -/

section Sessions

variable {κ τ : Type} [DecidableEq κ] [DecidableEq τ] {stkn : δ → τ} {W : κ ⊕ τ → Prop}

/-- Each call. -/
theorem Call.triple (h : Tokens stkn o W) (c : Call κ δ) :
    Triple (terms (κ ⊕ τ) δ tid) (Rest tid o W) (c.code tid stkn) fun _ => Idle tid stkn := by
  cases c with
  | timedlock k =>
    refine triple_post triple_mtxTimedlock fun _ x hx => ?_
    rcases hx with ⟨-, hx⟩ | hx
    · exact ⟨o, _, h.gain_mtx, hx⟩
    · exact ⟨o, W, h, hx⟩
  | trylock k =>
    refine triple_post triple_mtxTrylock fun _ x hx => ?_
    rcases hx with ⟨-, hx⟩ | hx
    · exact ⟨o, _, h.gain_mtx, hx⟩
    · exact ⟨o, W, h, hx⟩
  | unlock k =>
    refine triple_post triple_mtxUnlock fun _ x hx => ?_
    rcases hx with ⟨-, hx⟩ | ⟨-, hx⟩
    · exact ⟨o, _, h.drop_mtx, hx⟩
    · exact ⟨o, W, h, hx⟩
  | deadmanTimedlock d =>
    refine triple_post triple_deadmanTimedlock fun _ x hx => ?_
    rcases hx with ⟨hW, hx⟩ | hx
    · exact ⟨_, _, h.gain_token hW, hx⟩
    · exact ⟨o, W, h, hx⟩
  | deadmanTrylock d =>
    refine triple_post triple_deadmanTrylock fun _ x hx => ?_
    rcases hx with ⟨hW, hx⟩ | hx
    · exact ⟨_, _, h.gain_token hW, hx⟩
    · exact ⟨o, W, h, hx⟩
  | deadmanUnlock d =>
    refine triple_post (triple_deadmanUnlock (h.own d)) fun _ x hx => ?_
    rcases hx with ⟨hd, hx⟩ | hx
    · exact ⟨_, _, h.drop_token hd, hx⟩
    · exact ⟨o, W, h, hx⟩

theorem triple_session (calls : List (Call κ δ)) :
    Triple (terms (κ ⊕ τ) δ tid) (Idle tid stkn) (session tid stkn calls) fun _ => Idle tid stkn := by
  induction calls with
  | nil => exact triple_pure fun x hx => hx
  | cons c cs ih =>
    refine triple_bind (triple_exists fun o => triple_exists fun W => triple_and fun h => ?_) fun _ => ih
    exact c.triple h

variable {s t t' : State (κ ⊕ τ) δ} {q q' : Code (State (κ ⊕ τ) δ) Unit} {calls : List (Call κ δ)}

omit [DecidableEq δ] [DecidableEq κ] [DecidableEq τ] in
theorem Fresh.idle (hs : Fresh tid s) : Seen (terms (κ ⊕ τ) δ tid) (Idle tid stkn) s := by
  refine .intro ⟨fun _ => false, fun _ => False, ⟨nofun, nofun⟩, .inl ⟨hs, ?_, fun _ => id⟩⟩ (.inl hs.unlisted)
  exact funext hs.isOwner

theorem session_safe (hs : Fresh tid s) :
    Safe (terms (κ ⊕ τ) δ tid) (session tid stkn calls) (fun _ => Seen (terms (κ ⊕ τ) δ tid) (Idle tid stkn)) s :=
  triple_session calls s hs.idle

/-- At any instant of any calls, once the head is set up, following `next` from it visits no mutex
twice and returns, and what the thread has is visited or pending; and after the calls exactly
what it has is visited, by links that are inverse to each other. -/
theorem covered (hs : Fresh tid s) (h : Visits (Interferes tid) (session tid stkn calls) s q t) :
    (Unlisted tid t ∨ Coverage tid t) ∧ (q = .ret () → Unlisted tid t ∨ Exact tid t) := by
  refine ⟨(session_safe hs).instant h, ?_⟩
  rintro rfl
  obtain ⟨x, hx, -, hxt⟩ := (session_safe hs).result h
  obtain ⟨o, W, htok, hrest⟩ := hx
  exact Idle.exact ⟨o, W, htok, hrest.rely hxt⟩

/-- No action changes what another thread has. -/
theorem leaves_others (hs : Fresh tid s) (h : Visits (Interferes tid) (session tid stkn calls) s q t)
    (hst : Step q t q' t') :
    Leaves tid t t' := (session_safe hs).leaves h hst

end Sessions

/-- The thread with the id 1. -/
def tidOne : Tid := ⟨1, ftxTid_one, ftx_one_ne_zero⟩

/-- A mutex and a deadman object, and a thread that has done nothing. -/
def fresh : State (Unit ⊕ Unit) Unit :=
  ⟨fun _ => .null, fun _ => .null, fun _ => 0, fun _ => 0, fun _ => false, false, 0, .null, false, fun _ => false,
    fun _ => false⟩

theorem fresh_fresh : Fresh tidOne fresh := by
  refine ⟨⟨rfl, fun i => ?_⟩, rfl, rfl, fun _ => rfl⟩
  show ¬ ftxTid 0 = tidOne.val
  decide

theorem exists_timedlock : ∃ t, Visits (Interferes tidOne) (mtxTimedlock tidOne (.inl ())) fresh (.ret none) t ∧
    Own tidOne t (.inl ()) := by
  have hstart : Visits (Interferes tidOne) (robustOpStart (Sum.inl ())) fresh (.ret ()) _ :=
    .bind (.bind .load (.bind (.bind .store (.bind .store (.bind .store .store))) .store)) .store
  have hlock : ∀ s : State (Unit ⊕ Unit) Unit, s.ftx (.inl ()) = 0 →
      Visits (Interferes tidOne) (mtxTimedlockRobust tidOne (.inl ())) s (.ret none)
        (s.setFtx (.inl ()) tidOne.val) := by
    intro s hs
    have hcas : Visits (Interferes tidOne) (cas (.inl ()) 0 tidOne.val) s (.ret true) (s.setFtx (.inl ()) tidOne.val) :=
      .act (if_pos hs).symm
    exact .bind hcas .refl
  have hadd : ∀ s : State (Unit ⊕ Unit) Unit, s.next .head = .head →
      Visits (Interferes tidOne) (robustOpAdd (.inl ())) s
      (.ret ()) (((s.setPrev (.node (.inl ())) .head).setNext (.node (.inl ())) .head).setNext .head
        (.node (.inl ()))) := by
    intro s hs
    exact .bind (.act ⟨hs.symm, rfl⟩) (.bind .store (.bind .store (.bind .store .refl)))
  exact ⟨_, .bind hstart (.bind (hlock _ rfl) (.bind (hadd _ rfl) (.bind .store .refl))), tidOne.masked⟩

/-- The thread has locked a mutex. -/
theorem covered_one : ∃ t, Visits (Interferes tidOne) (session tidOne id [Call.timedlock ()]) fresh (.ret ()) t ∧
    Own tidOne t (.inl ()) ∧ Coverage tidOne t ∧ Exact tidOne t := by
  obtain ⟨t, hlock, hown⟩ := exists_timedlock
  have hrun : Visits (Interferes tidOne) (session tidOne id [Call.timedlock ()]) fresh (.ret ()) t := .bind hlock .refl
  obtain ⟨hcov, hexact⟩ := covered fresh_fresh hrun
  refine ⟨t, hrun, hown, hcov.resolve_left fun h => ?_, (hexact rfl).resolve_left fun h => ?_⟩
  · exact h.2 (.inl ()) hown
  · exact h.2 (.inl ()) hown

/-- The first call of a thread is `a0_deadman_mtx_timedlock`, and it has stored `_inop`. -/
theorem not_coverage : ∃ q t, Visits (Interferes tidOne) (session tidOne id [Call.deadmanTimedlock ()]) fresh q t ∧
    t.loc.inop () = true ∧ ¬ ∃ L, Walk t.next .head L := by
  refine ⟨_, fresh.setInop () true, .bind_left (.bind .load (.bind_left .store _)) _, rfl, ?_⟩
  rintro ⟨L, hL⟩
  cases L with
  | nil => cases hL
  | cons i L => cases hL.1

end Robust

end AlephZero
