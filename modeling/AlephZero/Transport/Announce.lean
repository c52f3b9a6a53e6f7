import AlephZero.Machine.Bell
import AlephZero.Transport.Session

/-!
# What the transport announces

The condition's counter is a bell: whoever waits for the transport sleeps until it is
counted up. `a0_transport_commit` counts it up behind its stores, and so does the eviction
of a frame in the middle of `a0_transport_alloc`.

## What is proved

* `rings_commit`, `rings_clear`, `rings_removeHead` — they ring, wherever they begin.
* **`Call.announces`** — at each store of a call, what is committed stays the same until the
  call ends, or the bell is yet to ring.
-/

namespace AlephZero

open ByteMem StoreProg Prog

namespace Transport

/-- The condition's counter. -/
def cnd (m : Mem) : ℕ := m.load 4 40

/-- It is counted up when what is committed has changed. -/
def bell : Bell Mem TransportState := ⟨cnd, committedState, fun n => (n + 1) % 2 ^ 32⟩

variable {m t : Mem} {n q : ℕ} {C X : List Frame} {i : ℕ} {c w : TransportState}

/-! ### Final states -/

section Traced

instance (a v : ℕ) : Traced (storeWord a v) := traced_write _

instance traced_memcpy (a : ℕ) (bs : List UInt8) : Traced (memcpy a bs) := by
  induction bs generalizing a with
  | nil => exact traced_pure ()
  | cons b bs ih =>
    unfold memcpy
    infer_instance

instance (a k : ℕ) : Traced (memset a k) := traced_memcpy a _

instance (dst src : ℕ) : Traced (copyState dst src) := by
  unfold copyState
  infer_instance

instance : Traced cndBroadcast := traced_write _

instance (mode : ArenaMode) : Traced (lock mode) := by
  unfold lock
  infer_instance

instance (mode : ArenaMode) : Traced (unlock mode) := by
  unfold unlock
  infer_instance

instance : Traced commit := by
  unfold commit
  infer_instance

instance (state : ℕ) : Traced (removeHead state) := by
  unfold removeHead
  infer_instance

instance traced_evict (off frameSize fuel : ℕ) : Traced (evict off frameSize fuel) := by
  induction fuel with
  | zero => exact traced_pure false
  | succ fuel ih =>
    unfold evict
    infer_instance

set_option synthInstance.maxSize 512 in
instance (state frameHdr off size : ℕ) : Traced (slotInit state frameHdr off size) := by
  simp only [slotInit]
  infer_instance

instance (state frameHdr : ℕ) : Traced (maybeSetHead state frameHdr) := by
  unfold maybeSetHead
  infer_instance

instance (state frameHdr : ℕ) : Traced (updateTail state frameHdr) := by
  simp only [updateTail]
  infer_instance

instance (state frameHdr : ℕ) : Traced (updateHighWaterMark state frameHdr) := by
  unfold updateHighWaterMark
  infer_instance

instance (size : ℕ) : Traced (resize size) := by
  unfold resize
  infer_instance

instance : Traced clear := by
  unfold clear
  infer_instance

set_option synthInstance.maxSize 512 in
instance (mode : ArenaMode) (size : ℕ) : Traced (alloc mode size) := by
  unfold alloc
  split
  · infer_instance
  · refine @traced_bind _ _ _ _ _ inferInstance fun slot => ?_
    cases slot with
    | error e => exact traced_pure _
    | ok off => simp only; infer_instance

end Traced

/-! ### Ringing -/

theorem cnd_store {k a v : ℕ} (h : a + k ≤ 40 ∨ 44 ≤ a) : cnd (m.store k a v) = cnd m :=
  Mem.load_store_of_disjoint (by omega)

theorem cnd_sameOutside {a k : ℕ} (ha : 44 ≤ a) (h : Mem.SameOutside a k m t) : cnd t = cnd m :=
  h.load (by omega)

theorem le_workingPage (m : Mem) : 44 ≤ workingPage m := by
  unfold workingPage statePage
  omega

theorem rings_cndBroadcast : cndBroadcast.Rings bell m := by
  have hlt : cnd m < 2 ^ 32 := m.load_lt 4 40
  have hcnd : cnd (m.store 4 40 (m.load 4 40 + 1)) = (cnd m + 1) % 2 ^ 32 := Mem.load_store_self
  refine rings_write hcnd ?_
  show cnd _ ≠ cnd m
  rw [hcnd]
  omega

theorem copyState_cnd {dst src : ℕ} (h : 44 ≤ dst) :
    (copyState dst src).wpc (fun t => cnd t = cnd m) (fun _ t => cnd t = cnd m) m :=
  wpc_mono copyState_wpc (fun _ ht => cnd_sameOutside h ht) fun _ _ ht => cnd_sameOutside h ht.1

/-- `a0_transport_commit` rings. -/
theorem rings_commit : commit.Rings bell m := by
  have hcommit : commit = (do
      let idx ← Prog.read committedPageIdx
      Prog.write fun m => m.store 1 128 (lnot idx)
      let working ← Prog.read workingPage
      let committed ← Prog.read committedPage
      copyState working committed) >>= fun _ => cndBroadcast := by
    simp only [commit, bind_assoc]
  have hflip : cnd (m.store 1 128 (lnot (committedPageIdx m))) = cnd m := cnd_store (by omega)
  rw [hcommit]
  refine rings_bind ?_
  simp only [wpc_bind, wpc_read, wpc_write]
  refine ⟨hflip, wpc_mono (copyState_cnd (le_workingPage _)) (fun t ht => ?_) fun _ _ _ => rings_cndBroadcast⟩
  exact ht.trans hflip

theorem rings_storeWord {a v : ℕ} {f : Unit → Prog Mem Unit} (ha : 44 ≤ a) (h : ∀ t, (f ()).Rings bell t) :
    (storeWord a v >>= f).Rings bell m := by
  refine rings_bind ?_
  simp only [storeWord, wpc_write]
  exact ⟨cnd_store (.inr ha), h _⟩

theorem rings_read {β : Type} {g : Mem → β} {f : β → Prog Mem Unit} (h : ∀ x t, (f x).Rings bell t) :
    (Prog.read g >>= f).Rings bell m := by
  refine rings_bind ?_
  rw [wpc_read]
  exact h _ _

/-- So does `a0_transport_clear`. -/
theorem rings_clear : clear.Rings bell m := by
  have hle := le_workingPage m
  unfold clear
  refine rings_bind (wpc_read.mpr ?_)
  refine rings_read fun high t => ?_
  refine rings_storeWord (by omega) fun t => ?_
  refine rings_storeWord (by omega) fun t => ?_
  refine rings_storeWord (by omega) fun t => ?_
  exact rings_storeWord (by omega) fun t => rings_commit

/-- And `a0_transport_remove_head`. -/
theorem rings_removeHead {state : ℕ} (h : 44 ≤ state) : (removeHead state).Rings bell m := by
  unfold removeHead
  refine rings_read fun s t => ?_
  have hlast (t : Mem) : (storeWord state (wrap (s.seqLow + 1)) >>= fun _ => commit).Rings bell t :=
    rings_storeWord h fun _ => rings_commit
  split
  · refine rings_storeWord (by omega) fun t => ?_
    refine rings_storeWord (by omega) fun t => ?_
    exact rings_storeWord (by omega) fun t => hlast t
  · refine rings_read fun next t => ?_
    refine rings_storeWord (by omega) fun t => ?_
    refine rings_read fun headEnd t => ?_
    split
    · refine rings_read fun tailEnd t => ?_
      exact rings_storeWord (by omega) fun t => hlast t
    · exact hlast t

/-! ### Keeping quiet -/

/-- The loop of `a0_transport_evict`. -/
theorem announces_evict {off frameSize fuel : ℕ} : (evict off frameSize fuel).Announces bell m := by
  induction fuel generalizing m with
  | zero => exact announces_pure false
  | succ fuel ih =>
    unfold evict
    refine announces_read_bind ?_
    split
    · refine announces_read_bind ?_
      exact announces_bind (rings_removeHead (le_workingPage m)).announces ih
    · exact announces_pure true

theorem slotInit_cnd {state off size : ℕ} (hs : 44 ≤ state) (ho : 44 ≤ off) :
    (slotInit state off off size).wpc (fun t => cnd t = cnd m) (fun _ t => cnd t = cnd m) m := by
  simp only [slotInit, storeWord]
  rw [wpc_bind]
  refine wpc_mono memset_wpc (fun t ht => cnd_sameOutside ho ht) fun _ t ht => ?_
  have ht := cnd_sameOutside ho ht.1
  simp only [wpc_bind, wpc_read, wpc_write]
  split_ifs <;> simp (disch := omega) [wpc_bind, wpc_write, cnd_store, ht]

theorem maybeSetHead_cnd {state off : ℕ} (hs : 44 ≤ state) :
    (maybeSetHead state off).wpc (fun t => cnd t = cnd m) (fun _ t => cnd t = cnd m) m := by
  simp only [maybeSetHead, storeWord, wpc_bind, wpc_read]
  split_ifs <;> simp (disch := omega) [wpc_bind, wpc_read, wpc_write, cnd_store]

theorem updateTail_cnd {state off : ℕ} (hs : 44 ≤ state) (ho : 44 ≤ off)
    (htail : (loadState m state).offTail = 0 ∨ 44 ≤ (loadState m state).offTail) :
    (updateTail state off).wpc (fun t => cnd t = cnd m) (fun _ t => cnd t = cnd m) m := by
  simp only [updateTail, storeWord, wpc_bind, wpc_read]
  split_ifs with h0
  · have htail := htail.resolve_left h0
    simp (disch := omega) [wpc_bind, wpc_write, cnd_store]
  · simp (disch := omega) [wpc_write, cnd_store]

theorem updateHighWaterMark_cnd {state off : ℕ} (hs : 44 ≤ state) :
    (updateHighWaterMark state off).wpc (fun t => cnd t = cnd m) (fun _ t => cnd t = cnd m) m := by
  simp only [updateHighWaterMark, storeWord, wpc_bind, wpc_read]
  split_ifs <;> simp (disch := omega) [wpc_write, cnd_store]

/-- The placement of a frame changes neither the counter nor what is committed. -/
theorem place_quiet {off size : ℕ} (hv : View m i c w n) (ho : 144 ≤ off) (hfit : off + 40 + size < 2 ^ 64)
    (hq : w.seqHigh + 1 < 2 ^ 64)
    (htail : w.offTail = 0 ∨ 144 ≤ w.offTail ∧ (w.offTail + 40 ≤ off ∨ off + 40 ≤ w.offTail)) :
    (slotInit (statePage (lnot i)) off off size >>= fun _ =>
      maybeSetHead (statePage (lnot i)) off >>= fun _ =>
      updateTail (statePage (lnot i)) off >>= fun _ =>
      updateHighWaterMark (statePage (lnot i)) off).wpc
      (fun t => cnd t = cnd m ∧ committedState t = committedState m) (fun _ _ => True) m := by
  have hs : 44 ≤ statePage (lnot i) := by unfold statePage; omega
  have hoff : off < 2 ^ 64 := by omega
  have hcnd : (slotInit (statePage (lnot i)) off off size >>= fun _ =>
      maybeSetHead (statePage (lnot i)) off >>= fun _ =>
      updateTail (statePage (lnot i)) off >>= fun _ =>
      updateHighWaterMark (statePage (lnot i)) off).wpc
      (fun t => cnd t = cnd m) (fun _ _ => True) m := by
    simp only [wpc_bind]
    refine wpc_mono (wpc_and (slotInit_wpc hv ho hoff (by omega) hq w.offTail) (slotInit_cnd hs (by omega)))
      (fun _ ht => ht.2) ?_
    rintro _ t₁ ⟨⟨_, hv₁, hh₁⟩, h₁⟩
    refine wpc_mono (wpc_and (maybeSetHead_wpc hv₁ hh₁.off hoff) (maybeSetHead_cnd hs))
      (fun _ ht => ht.2.trans h₁) ?_
    rintro _ t₂ ⟨⟨_, hv₂⟩, h₂⟩
    have h₂ := h₂.trans h₁
    refine wpc_mono (updateTail_cnd hs (by omega) ?_) (fun _ ht => ht.trans h₂) fun _ t₃ h₃ => ?_
    · rw [hv₂.working]
      exact htail.imp id fun h => by
        show 44 ≤ w.offTail
        omega
    · exact wpc_mono (updateHighWaterMark_cnd hs) (fun _ ht => ht.trans (h₃.trans h₂)) fun _ _ _ => trivial
  refine wpc_mono (wpc_and hcnd (place_wpc hv ho hfit hq htail)) (fun t ht => ⟨ht.1, ?_⟩) fun _ _ _ => trivial
  exact ht.2.2.state.trans hv.committedView.state.symm

/-! ### The calls -/

theorem lock_cnd : (lock .shared).wpc (fun t => cnd t = cnd m) (fun _ _ => True) m := by
  simp only [lock, wpc_bind, wpc_read, ne_eq, not_true_eq_false, if_false]
  exact wpc_mono (copyState_cnd (le_workingPage m)) (fun _ ht => ht) fun _ _ _ => trivial

/-- `a0_transport_lock`, and `a0_transport_unlock`. -/
theorem announces_lock (h : Committed m c n) : (lock .shared).Announces bell m := by
  refine announces_of_quiet (wpc_mono (wpc_and lock_cnd (lock_wpc h)) (fun t ht => ⟨ht.1, ?_⟩) fun _ _ ht => ht)
  exact ht.2.2.state.trans h.state.symm

/-- `a0_transport_alloc`. -/
theorem announces_alloc {size : ℕ} (h : Ready m n C X q) (hq : q + X.length + 2 < 2 ^ 64) (hsize : size < 2 ^ 63) :
    (alloc .shared size).Announces bell m := by
  obtain ⟨ho, i, c, w, hv, hc, hcq, hw, hwq, -⟩ := h
  have hn := hw.layout.size
  have hwrap : wrap (40 + size) = 40 + size := wrap_of_lt (by omega)
  rw [alloc, if_neg (by decide), hwrap]
  have hslot : findSlot m (40 + size) = _ := findSlot_eq hv hw (by omega)
  refine announces_read_bind ?_
  simp only [hslot]
  by_cases hfit : n < 184 + size
  · rw [if_pos (by omega)]
    exact announces_pure _
  rw [if_neg (by omega)]
  obtain ⟨hoff, hend, -⟩ : 144 ≤ slotOff n (40 + size) (C ++ X) ∧ _ ∧ _ :=
    slotOff_spec hw.layout (by omega)
  refine announces_read_bind ?_
  refine announces_bind announces_evict ?_
  have hfits : slotOff n (40 + size) (C ++ X) + (40 + size) < 2 ^ 64 := by omega
  obtain ⟨hr, hs, i', c', w', hv', hh', hhigh, hcase⟩ := post_of_wpc
    (evict_wpc hv hw hfits (length_lt_evictFuel hw.page))
  rw [hv.workingState_eq, hr, if_pos rfl]
  refine announces_read_bind ?_
  rw [hv'.workingPage_eq]
  generalize (evict (slotOff n (40 + size) (C ++ X)) (40 + size) (evictFuel w)).exec m = u at *
  have hfree : Freed m u n C X q size i' c' w' := by
    refine ⟨hw.layout, ho.sameFrames hs, hs, hv', hh', hhigh.trans hwq, hcase.imp ?_ id⟩
    rintro ⟨hk, rfl, rfl⟩
    exact ⟨hk, hc, hcq⟩
  -- the place is free, and apart from the newest frame
  obtain ⟨f, hfoff, hlen⟩ : ∃ f : Frame, f.off = slotOff n (40 + size) (C ++ X) ∧ f.data.length = size :=
    ⟨⟨0, _, List.replicate size 0⟩, rfl, List.length_replicate⟩
  have hl := hfree.room.place (by omega) hfoff hlen
  have htail : w'.offTail = lastOff (kept n size (C ++ X)) := hh'.page.tail
  have hapart := tail_apart hh' hl
  have hplace : slotOff n (40 + size) (C ++ X) + 40 + size < 2 ^ 64 := by omega
  have hquiet := place_quiet hv' hoff hplace (by have := hfree.high; omega) (by omega)
  simp only [wpc_bind] at hquiet
  refine announces_of_quiet (Q := fun _ _ => True) ?_
  simp only [wpc_bind, wpc_pure]
  exact hquiet

theorem traced_prog {call : Call} (hinit : ∀ size, call ≠ .init size) (slot : Slot) :
    Traced (call.prog .shared slot) := by
  cases call with
  | init size => exact absurd rfl (hinit size)
  | lock | unlock | commit | clear | resize =>
    unfold Call.prog
    infer_instance
  | alloc size =>
    refine @traced_bind _ _ _ _ _ inferInstance fun r => ?_
    rcases r with _ | _ | off
    · exact traced_pure _
    · exact traced_pure _
    · exact traced_pure _
  | put j b =>
    rcases slot with _ | ⟨off, size⟩
    · exact traced_pure _
    · simp only [Call.prog]
      infer_instance

/-- What a call on the locked transport changes it announces. -/
theorem Call.announces {call : Call} {slot : Slot} (hinit : ∀ size, call ≠ .init size) (h : Ready m n C X q)
    (hs : Outstanding slot X) (hfits : call.Fits) (hq : q + X.length + call.isAlloc.toNat + 1 < 2 ^ 64) :
    (call.prog .shared slot).Announces bell m := by
  have h' := h
  obtain ⟨-, i, c, w, hv, -, -, hw, -⟩ := h'
  cases call with
  | init size => exact absurd rfl (hinit size)
  | lock => exact announces_bind (announces_lock hv.committedView) (announces_pure none)
  | unlock => exact announces_bind (unlock_eq_lock _ ▸ announces_lock hv.committedView) (announces_pure none)
  | alloc size =>
    refine announces_bind (announces_alloc h hq (lt_trans hfits (by norm_num))) ?_
    split <;> exact announces_pure _
  | put j b =>
    rcases slot with _ | ⟨off, size⟩
    · exact announces_pure none
    · obtain ⟨X', f, rfl, rfl, rfl⟩ := hs off size rfl
      have hoff : 144 ≤ f.off := hw.layout.lower f (by simp)
      simp only [prog]
      split_ifs
      · refine announces_of_quiet (Q := fun _ _ => True) ?_
        simp only [wpc_bind, wpc_write, wpc_pure, and_true]
        refine ⟨cnd_store (by omega), ?_⟩
        exact (hv.store_frame (by omega)).committedView.state.trans hv.committedView.state.symm
      · exact announces_pure _
  | commit => exact announces_bind rings_commit.announces (announces_pure none)
  | clear => exact announces_bind rings_clear.announces (announces_pure none)
  | resize size =>
    refine announces_bind ?_ (announces_pure slot)
    refine announces_read_bind ?_
    split_ifs
    · exact announces_pure _
    · refine announces_of_quiet (Q := fun _ _ => True) ?_
      simp only [storeWord, wpc_bind, wpc_write, wpc_pure, and_true]
      refine ⟨cnd_store (by omega), ?_⟩
      exact (hv.store_size (lt_trans hfits (by norm_num))).committedView.state.trans hv.committedView.state.symm

end Transport

end AlephZero
