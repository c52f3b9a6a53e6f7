import AlephZero.Transport.Basic
import Mathlib.Tactic.IntervalCases
import Mathlib.Tactic.NormNum

/-!
# The two state pages

What each function of the transport does to the header: to the committed page,
the working page and the arena's size. `View m i c w n` says that in memory `m`
page `i` is committed and holds `c`, the other page holds `w`, and the arena has
size `n`; `Committed m c n` says the same of the committed page alone, which is
all a process that takes over after a death can rely on. One lemma for each
function gives the view it leaves, and what is committed at each of its stores.

## What is proved

* `copyState_wpc`, `lock_wpc`, `commit_wpc`, `clear_wpc`, `resize_wpc`.
* `removeHead_wpc` — the page it leaves is `removeHeadState`.
-/

namespace AlephZero

open ByteMem StoreProg Prog

namespace Transport

theorem wrap_of_lt {n : ℕ} (h : n < 2 ^ 64) : wrap n = n := Nat.mod_eq_of_lt h

theorem wrap_lt (n : ℕ) : wrap n < 2 ^ 64 := Nat.mod_lt _ (by norm_num)

@[simp] theorem workspaceOff_eq : workspaceOff = 144 := by decide

theorem load8_lt (m : Mem) (a : ℕ) : m.load 8 a < 2 ^ 64 := by
  have := m.load_lt 8 a
  norm_num at this ⊢
  exact this

/-- A word that fits is loaded back. -/
theorem load_store_word {m : Mem} {a v : ℕ} (h : v < 2 ^ 64) : (m.store 8 a v).load 8 a = v :=
  Mem.load_store_of_lt (by norm_num at h ⊢; exact h)

/-! ### Views -/

/-- Page `i` is committed and holds `c`, the other page holds `w`, and the arena
has size `n`. -/
structure View (m : Mem) (i : ℕ) (c w : TransportState) (n : ℕ) : Prop where
  idx : committedPageIdx m = i
  le : i ≤ 1
  committed : loadState m (statePage i) = c
  working : loadState m (statePage (lnot i)) = w
  size : arenaSize m = n

/-- The committed page holds `c`, and the arena has size `n`. -/
structure Committed (m : Mem) (c : TransportState) (n : ℕ) : Prop where
  le : committedPageIdx m ≤ 1
  state : committedState m = c
  size : arenaSize m = n

/-- The bytes behind the header are the same, and those in front of the mutex. -/
def SameFrames (m m' : Mem) : Prop := ∀ x, x < 16 ∨ 144 ≤ x → m' x = m x

theorem SameFrames.refl (m : Mem) : SameFrames m m := fun _ _ => rfl

theorem SameFrames.trans {m m' m'' : Mem} (h : SameFrames m m') (h' : SameFrames m' m'') :
    SameFrames m m'' :=
  fun x hx => (h' x hx).trans (h x hx)

theorem SameFrames.load {m m' : Mem} (h : SameFrames m m') {n a : ℕ} (ha : 144 ≤ a) :
    m'.load n a = m.load n a :=
  Mem.load_congr fun x _ _ => h x (by omega)

theorem SameFrames.load_low {m m' : Mem} (h : SameFrames m m') {n a : ℕ} (ha : a + n ≤ 16) :
    m'.load n a = m.load n a :=
  Mem.load_congr fun x _ _ => h x (by omega)

theorem sameFrames_store {m : Mem} {k a v : ℕ} (h : 16 ≤ a ∧ a + k ≤ 144) : SameFrames m (m.store k a v) :=
  fun _ _ => Mem.store_of_disjoint (by omega)

variable {m m' : Mem} {i n : ℕ} {c w : TransportState}

theorem View.committedView (h : View m i c w n) : Committed m c n := by
  refine ⟨h.idx ▸ h.le, ?_, h.size⟩
  rw [committedState, committedPage, h.idx, h.committed]

@[simp] theorem lnot_lnot (h : i ≤ 1) : lnot (lnot i) = i := by
  interval_cases i <;> rfl

theorem lnot_le (i : ℕ) : lnot i ≤ 1 := by unfold lnot; split <;> omega

theorem View.workingPage_eq (h : View m i c w n) : workingPage m = statePage (lnot i) := by
  rw [workingPage, h.idx]

theorem View.committedPage_eq (h : View m i c w n) : committedPage m = statePage i := by
  rw [committedPage, h.idx]

theorem View.workingState_eq (h : View m i c w n) : workingState m = w := by
  rw [workingState, h.workingPage_eq, h.working]

/-- Every memory whose page index is sane has a view. -/
theorem view_of_le (h : committedPageIdx m ≤ 1) :
    View m (committedPageIdx m) (committedState m) (workingState m) (arenaSize m) :=
  ⟨rfl, h, rfl, rfl, rfl⟩

/-- The words of a page fit. -/
theorem View.working_lt (h : View m i c w n) :
    w.seqLow < 2 ^ 64 ∧ w.seqHigh < 2 ^ 64 ∧ w.offHead < 2 ^ 64 ∧ w.offTail < 2 ^ 64 ∧
      w.highWaterMark < 2 ^ 64 := by
  rw [← h.working]
  exact ⟨load8_lt _ _, load8_lt _ _, load8_lt _ _, load8_lt _ _, load8_lt _ _⟩

/-- Where the two pages are. -/
theorem statePage_lnot (h : i ≤ 1) :
    statePage i = 48 ∧ statePage (lnot i) = 88 ∨ statePage i = 88 ∧ statePage (lnot i) = 48 := by
  interval_cases i <;> simp [statePage, lnot]

/-- The view depends on the header from the pages on. -/
theorem View.congr (h : View m i c w n) (hs : ∀ x, 48 ≤ x → x < 144 → m' x = m x) :
    View m' i c w n := by
  have hi := statePage_lnot h.le
  have keep : ∀ {k a : ℕ}, 48 ≤ a → a + k ≤ 144 → m'.load k a = m.load k a :=
    fun ha hk => Mem.load_congr fun x _ _ => hs x (by omega) (by omega)
  have page : ∀ {p : ℕ}, 48 ≤ p → p + 40 ≤ 144 → loadState m' p = loadState m p := by
    intro p h₁ h₂
    simp only [loadState]
    rw [keep h₁ (by omega), keep (by omega) (by omega), keep (by omega) (by omega),
      keep (by omega) (by omega), keep (by omega) (by omega)]
  refine ⟨?_, h.le, ?_, ?_, ?_⟩
  · rw [committedPageIdx, keep (by omega) (by omega)]; exact h.idx
  · rw [page (by omega) (by omega)]; exact h.committed
  · rw [page (by omega) (by omega)]; exact h.working
  · rw [arenaSize, keep (by omega) (by omega)]; exact h.size

/-- A store behind the header changes no view. -/
theorem View.store_frame (h : View m i c w n) {k a v : ℕ} (ha : 144 ≤ a) :
    View (m.store k a v) i c w n :=
  h.congr fun _ _ _ => Mem.store_of_disjoint (by omega)

/-- A store to the working page changes the working page. -/
theorem View.store_working (h : View m i c w n) {k v : ℕ} {w' : TransportState} (hk : k + 8 ≤ 40)
    (hw : loadState (m.store 8 (statePage (lnot i) + k) v) (statePage (lnot i)) = w') :
    View (m.store 8 (statePage (lnot i) + k) v) i c w' n := by
  have hi := statePage_lnot h.le
  refine ⟨?_, h.le, ?_, hw, ?_⟩
  · rw [committedPageIdx, Mem.load_store_of_disjoint (by omega)]; exact h.idx
  · rw [← h.committed]
    simp (disch := omega) only [loadState, Mem.load_store_of_disjoint]
  · rw [← h.size, arenaSize, arenaSize, Mem.load_store_of_disjoint (by omega)]

theorem View.store_seqLow (h : View m i c w n) {v : ℕ} (hv : v < 2 ^ 64) :
    View (m.store 8 (statePage (lnot i)) v) i c { w with seqLow := v } n := by
  refine h.store_working (k := 0) (by omega) ?_
  rw [← h.working]
  simp (disch := omega) [loadState, load_store_word hv, Mem.load_store_of_disjoint]

theorem View.store_seqHigh (h : View m i c w n) {v : ℕ} (hv : v < 2 ^ 64) :
    View (m.store 8 (statePage (lnot i) + 8) v) i c { w with seqHigh := v } n := by
  refine h.store_working (by omega) ?_
  rw [← h.working]
  simp (disch := omega) [loadState, load_store_word hv, Mem.load_store_of_disjoint]

theorem View.store_offHead (h : View m i c w n) {v : ℕ} (hv : v < 2 ^ 64) :
    View (m.store 8 (statePage (lnot i) + 16) v) i c { w with offHead := v } n := by
  refine h.store_working (by omega) ?_
  rw [← h.working]
  simp (disch := omega) [loadState, load_store_word hv, Mem.load_store_of_disjoint]

theorem View.store_offTail (h : View m i c w n) {v : ℕ} (hv : v < 2 ^ 64) :
    View (m.store 8 (statePage (lnot i) + 24) v) i c { w with offTail := v } n := by
  refine h.store_working (by omega) ?_
  rw [← h.working]
  simp (disch := omega) [loadState, load_store_word hv, Mem.load_store_of_disjoint]

theorem View.store_highWaterMark (h : View m i c w n) {v : ℕ} (hv : v < 2 ^ 64) :
    View (m.store 8 (statePage (lnot i) + 32) v) i c { w with highWaterMark := v } n := by
  refine h.store_working (by omega) ?_
  rw [← h.working]
  simp (disch := omega) [loadState, load_store_word hv, Mem.load_store_of_disjoint]

/-- A store to the arena's size. -/
theorem View.store_size (h : View m i c w n) {k : ℕ} (hk : k < 2 ^ 64) :
    View (m.store 8 136 k) i c w k := by
  have hi := statePage_lnot h.le
  refine ⟨?_, h.le, ?_, ?_, ?_⟩
  · rw [committedPageIdx, Mem.load_store_of_disjoint (by omega)]; exact h.idx
  · rw [← h.committed]
    simp (disch := omega) only [loadState, Mem.load_store_of_disjoint]
  · rw [← h.working]
    simp (disch := omega) only [loadState, Mem.load_store_of_disjoint]
  · rw [arenaSize, load_store_word hk]

/-- A store to the committed page's high water mark. -/
theorem View.store_committedMark (h : View m i c w n) {v : ℕ} (hv : v < 2 ^ 64) :
    View (m.store 8 (statePage i + 32) v) i { c with highWaterMark := v } w n := by
  have hi := statePage_lnot h.le
  refine ⟨?_, h.le, ?_, ?_, ?_⟩
  · rw [committedPageIdx, Mem.load_store_of_disjoint (by omega)]; exact h.idx
  · rw [← h.committed]
    simp (disch := omega) [loadState, load_store_word hv, Mem.load_store_of_disjoint]
  · rw [← h.working]
    simp (disch := omega) only [loadState, Mem.load_store_of_disjoint]
  · rw [← h.size, arenaSize, arenaSize, Mem.load_store_of_disjoint (by omega)]

/-! ### What is common to the specifications -/

/-- The header of a memory with the same bytes outside the working page. -/
theorem View.of_sameOutside (h : View m i c w n)
    (hs : Mem.SameOutside (statePage (lnot i)) 40 m m') :
    View m' i c (loadState m' (statePage (lnot i))) n ∧ SameFrames m m' := by
  have hi := statePage_lnot h.le
  refine ⟨⟨?_, h.le, ?_, rfl, ?_⟩, fun x hx => hs x (by omega)⟩
  · rw [committedPageIdx, hs.load (by omega)]; exact h.idx
  · rw [← h.committed]
    simp only [loadState]
    rw [hs.load (by omega), hs.load (by omega), hs.load (by omega), hs.load (by omega),
      hs.load (by omega)]
  · rw [arenaSize, hs.load (by omega)]; exact h.size

/-! ### Copies -/

theorem copyState_wpc {dst src : ℕ} :
    (copyState dst src).wpc (fun t => Mem.SameOutside dst 40 m t)
      (fun _ t => Mem.SameOutside dst 40 m t ∧ loadState t dst = loadState m src) m := by
  have h₁ := Mem.sameOutside_store (m := m) (a := dst) (n := 40) (b := dst) (k := 8)
    (v := m.load 8 src) le_rfl (by omega)
  have h₂ := h₁.trans (Mem.sameOutside_store (b := dst + 8) (k := 8)
    (v := m.load 8 (src + 8)) (by omega) (by omega))
  have h₃ := h₂.trans (Mem.sameOutside_store (b := dst + 16) (k := 8)
    (v := m.load 8 (src + 16)) (by omega) (by omega))
  have h₄ := h₃.trans (Mem.sameOutside_store (b := dst + 24) (k := 8)
    (v := m.load 8 (src + 24)) (by omega) (by omega))
  have h₅ := h₄.trans (Mem.sameOutside_store (b := dst + 32) (k := 8)
    (v := m.load 8 (src + 32)) (by omega) (by omega))
  simp only [copyState, storeWord, wpc_bind, wpc_read, wpc_write, loadState]
  refine ⟨h₁, h₂, h₃, h₄, h₅, h₅, ?_⟩
  simp (disch := omega) [Mem.load_store_of_disjoint, load_store_word (load8_lt _ _)]

/-- `a0_transport_lock`: the working page becomes a copy of the committed one. -/
theorem lock_wpc (h : Committed m c n) :
    (lock .shared).wpc (fun t => SameFrames m t ∧ Committed t c n)
      (fun _ t => SameFrames m t ∧ View t (committedPageIdx m) c c n) m := by
  have hv := view_of_le h.le
  rw [h.state, h.size] at hv
  have hi := statePage_lnot hv.le
  simp only [lock, wpc_bind, wpc_read, ne_eq, not_true_eq_false, if_false, hv.workingPage_eq,
    hv.committedPage_eq]
  refine wpc_mono copyState_wpc (fun t ht => ?_) fun _ t ht => ?_
  · exact ⟨(hv.of_sameOutside ht).2, (hv.of_sameOutside ht).1.committedView⟩
  · obtain ⟨ht, hcopy⟩ := ht
    have := hv.of_sameOutside ht
    rw [hcopy, hv.committed] at this
    exact this.symm

/-- In the other modes `a0_transport_lock` does nothing. -/
theorem lock_of_ne {mode : ArenaMode} (h : mode ≠ .shared) : lock mode = pure () := by
  rw [lock, if_pos h]

/-- `a0_transport_unlock` stores what `a0_transport_lock` does. -/
theorem unlock_eq_lock (mode : ArenaMode) : unlock mode = lock mode := rfl

/-! ### Committing -/

/-- The flip of the committed page index. -/
theorem View.flip (h : View m i c w n) : View (m.store 1 128 (lnot i)) (lnot i) w c n := by
  have hi := statePage_lnot h.le
  have hl := lnot_le i
  refine ⟨?_, hl, ?_, ?_, ?_⟩
  · rw [committedPageIdx, Mem.load_store_of_lt (by omega)]
  · rw [← h.working]
    simp (disch := omega) only [loadState, Mem.load_store_of_disjoint]
  · rw [← h.committed, lnot_lnot h.le]
    simp (disch := omega) only [loadState, Mem.load_store_of_disjoint]
  · rw [← h.size, arenaSize, arenaSize, Mem.load_store_of_disjoint (by omega)]

/-- A store to the condition's counter changes no view. -/
theorem View.store_cnd (h : View m i c w n) {v : ℕ} : View (m.store 4 40 v) i c w n :=
  h.congr fun _ _ _ => Mem.store_of_disjoint (by omega)

/-- `a0_transport_commit`: what the working page held is committed at the flip,
and at every store after it. -/
theorem commit_wpc (h : View m i c w n) :
    commit.wpc (fun t => SameFrames m t ∧ Committed t w n ∧ committedPageIdx t = lnot i)
      (fun _ t => SameFrames m t ∧ View t (lnot i) w w n) m := by
  have hf := h.flip
  have hsf : SameFrames m (m.store 1 128 (lnot i)) := sameFrames_store (by omega)
  have hi := statePage_lnot hf.le
  simp only [commit, wpc_bind, wpc_read, wpc_write, h.idx, hf.workingPage_eq, hf.committedPage_eq]
  refine ⟨⟨hsf, hf.committedView, hf.idx⟩, ?_⟩
  refine wpc_mono copyState_wpc (fun t ht => ?_) fun _ t ht => ?_
  · obtain ⟨hv, hs⟩ := hf.of_sameOutside ht
    exact ⟨hsf.trans hs, hv.committedView, hv.idx⟩
  · obtain ⟨ht, hcopy⟩ := ht
    have hv := hf.of_sameOutside ht
    rw [hcopy, hf.committed] at hv
    have hs : SameFrames m (t.store 4 40 (t.load 4 40 + 1)) :=
      (hsf.trans hv.2).trans (sameFrames_store (by omega))
    simp only [cndBroadcast, wpc_write]
    have hc := hv.1.store_cnd (v := t.load 4 40 + 1)
    exact ⟨⟨hs, hc.committedView, hc.idx⟩, hs, hc⟩

/-- The page `a0_transport_clear` leaves. -/
def clearState (w : TransportState) : TransportState :=
  { w with seqLow := wrap (w.seqHigh + 1), offHead := 0, offTail := 0, highWaterMark := 144 }

/-- `a0_transport_clear`. -/
theorem clear_wpc (h : View m i c w n) :
    clear.wpc (fun t => SameFrames m t ∧ (Committed t c n ∨ Committed t (clearState w) n))
      (fun _ t => SameFrames m t ∧ View t (lnot i) (clearState w) (clearState w) n) m := by
  have hi := statePage_lnot h.le
  have h₁ := h.store_seqLow (wrap_lt (w.seqHigh + 1))
  have h₂ := h₁.store_offHead (v := 0) (by norm_num)
  have h₃ := h₂.store_offTail (v := 0) (by norm_num)
  have h₄ := h₃.store_highWaterMark (v := 144) (by norm_num)
  have s₁ := sameFrames_store (m := m) (k := 8) (a := statePage (lnot i))
    (v := wrap (w.seqHigh + 1)) (by omega)
  have s₂ := s₁.trans (sameFrames_store (k := 8) (a := statePage (lnot i) + 16) (v := 0) (by omega))
  have s₃ := s₂.trans (sameFrames_store (k := 8) (a := statePage (lnot i) + 24) (v := 0) (by omega))
  have s₄ := s₃.trans (sameFrames_store (k := 8) (a := statePage (lnot i) + 32) (v := 144) (by omega))
  simp only [clear, storeWord, wpc_bind, wpc_read, wpc_write, h.workingPage_eq, h.working,
    workspaceOff_eq]
  refine ⟨⟨s₁, .inl h₁.committedView⟩, ⟨s₂, .inl h₂.committedView⟩, ⟨s₃, .inl h₃.committedView⟩,
    ⟨s₄, .inl h₄.committedView⟩, ?_⟩
  refine wpc_mono (commit_wpc h₄) (fun t ht => ?_) fun _ t ht => ?_
  · exact ⟨s₄.trans ht.1, .inr ht.2.1⟩
  · exact ⟨s₄.trans ht.1, ht.2⟩

/-- `a0_transport_resize`, of a size that fits. -/
theorem resize_wpc (h : View m i c w n) {k : ℕ} (hk : k < 2 ^ 64) :
    (resize k).wpc (fun t => SameFrames m t ∧ w.highWaterMark ≤ k ∧ Committed t c k)
      (fun r t => SameFrames m t ∧
        (k < w.highWaterMark ∧ r = .error .invalidArg ∧ t = m ∨
          w.highWaterMark ≤ k ∧ r = .ok () ∧ View t i c w k)) m := by
  simp only [resize, usedSpace, wpc_bind, wpc_read, h.workingState_eq]
  split_ifs with hlt
  · exact wpc_pure.mpr ⟨.refl m, .inl ⟨hlt, rfl, rfl⟩⟩
  · have hv := h.store_size hk
    have hs : SameFrames m (m.store 8 136 k) := sameFrames_store (by omega)
    simp only [storeWord, wpc_bind, wpc_write, wpc_pure]
    exact ⟨⟨hs, not_lt.mp hlt, hv.committedView⟩, hs, .inr ⟨not_lt.mp hlt, trivial, hv⟩⟩

/-! ### Removing the oldest frame -/

/-- The page `a0_transport_remove_head` leaves. -/
def removeHeadState (m : Mem) (w : TransportState) : TransportState :=
  if w.offHead = w.offTail then
    { w with seqLow := wrap (w.seqLow + 1), offHead := 0, offTail := 0, highWaterMark := 144 }
  else
    { w with
      seqLow := wrap (w.seqLow + 1)
      offHead := frameNextOff m w.offHead
      highWaterMark :=
        if w.highWaterMark = frameEnd m (frameOff m w.offHead) then frameEnd m w.offTail
        else w.highWaterMark }

/-- `a0_transport_remove_head`, when the oldest and the newest frame are behind
the header: an eviction is committed at once. -/
theorem removeHead_wpc (h : View m i c w n) (hh : 144 ≤ w.offHead) (ht : 144 ≤ w.offTail)
    (hself : frameOff m w.offHead = w.offHead) :
    (removeHead (statePage (lnot i))).wpc
      (fun t => SameFrames m t ∧ (Committed t c n ∨ Committed t (removeHeadState m w) n))
      (fun _ t => SameFrames m t ∧
        View t (lnot i) (removeHeadState m w) (removeHeadState m w) n) m := by
  have hi := statePage_lnot h.le
  -- whatever the page holds by then, the last two steps raise `seq_low` and commit
  have finish : ∀ {t : Mem} {w' : TransportState}, SameFrames m t → View t i c w' n →
      { w' with seqLow := wrap (w.seqLow + 1) } = removeHeadState m w →
      ((storeWord (statePage (lnot i)) (wrap (w.seqLow + 1)) >>= fun _ => commit).wpc
        (fun t => SameFrames m t ∧ (Committed t c n ∨ Committed t (removeHeadState m w) n))
        (fun _ t => SameFrames m t ∧
          View t (lnot i) (removeHeadState m w) (removeHeadState m w) n) t) := by
    intro t w' hs hv he
    have h₁ := hv.store_seqLow (wrap_lt (w.seqLow + 1))
    rw [he] at h₁
    have s₁ := hs.trans (sameFrames_store (k := 8) (a := statePage (lnot i))
      (v := wrap (w.seqLow + 1)) (by omega))
    simp only [storeWord, wpc_bind, wpc_write]
    refine ⟨⟨s₁, .inl h₁.committedView⟩, ?_⟩
    refine wpc_mono (commit_wpc h₁) (fun t ht => ?_) fun _ t ht => ?_
    · exact ⟨s₁.trans ht.1, .inr ht.2.1⟩
    · exact ⟨s₁.trans ht.1, ht.2⟩
  rw [removeHead, wpc_bind, wpc_read, h.working]
  split_ifs with heq
  · have h₁ := h.store_offHead (v := 0) (by norm_num)
    have h₂ := h₁.store_offTail (v := 0) (by norm_num)
    have h₃ := h₂.store_highWaterMark (v := 144) (by norm_num)
    have s₁ := sameFrames_store (m := m) (k := 8) (a := statePage (lnot i) + 16) (v := 0) (by omega)
    have s₂ := s₁.trans (sameFrames_store (k := 8) (a := statePage (lnot i) + 24) (v := 0) (by omega))
    have s₃ := s₂.trans (sameFrames_store (k := 8) (a := statePage (lnot i) + 32) (v := 144) (by omega))
    simp only [wpc_bind, storeWord, wpc_write, workspaceOff_eq]
    refine ⟨⟨s₁, .inl h₁.committedView⟩, ⟨s₂, .inl h₂.committedView⟩,
      ⟨s₃, .inl h₃.committedView⟩, ?_⟩
    have := finish s₃ h₃ (by rw [removeHeadState, if_pos heq])
    simpa only [wpc_bind, storeWord, wpc_write] using this
  · have h₁ := h.store_offHead (v := frameNextOff m w.offHead) (load8_lt _ _)
    have s₁ := sameFrames_store (m := m) (k := 8) (a := statePage (lnot i) + 16)
      (v := frameNextOff m w.offHead) (by omega)
    have hend : ∀ {off : ℕ}, 144 ≤ off →
        frameEnd (m.store 8 (statePage (lnot i) + 16) (frameNextOff m w.offHead)) off =
          frameEnd m off := by
      intro off ho
      rw [frameEnd, frameEnd, frameDataSize, frameDataSize, s₁.load (by omega)]
    have hoff : frameOff (m.store 8 (statePage (lnot i) + 16) (frameNextOff m w.offHead))
        w.offHead = frameOff m w.offHead := by
      rw [frameOff, frameOff, s₁.load (by omega)]
    simp only [wpc_bind, wpc_read, storeWord, wpc_write, hoff, hself, hend hh]
    refine ⟨⟨s₁, .inl h₁.committedView⟩, ?_⟩
    split_ifs with hm
    · have h₂ := h₁.store_highWaterMark (v := frameEnd m w.offTail) (wrap_lt _)
      have s₂ := s₁.trans (sameFrames_store (k := 8) (a := statePage (lnot i) + 32)
        (v := frameEnd m w.offTail) (by omega))
      simp only [wpc_bind, wpc_read, wpc_write, hend ht]
      refine ⟨⟨s₂, .inl h₂.committedView⟩, ?_⟩
      have := finish s₂ h₂ (by rw [removeHeadState, if_neg heq, hself, if_pos hm])
      simpa only [wpc_bind, storeWord, wpc_write] using this
    · have := finish s₁ h₁ (by rw [removeHeadState, if_neg heq, hself, if_neg hm])
      simpa only [wpc_pure, wpc_bind, storeWord, wpc_write] using this

end Transport

open Transport

/-- The page that a connection works on, once it has the lock. -/
def seen (mode : ArenaMode) (m : Mem) : TransportState :=
  if mode = .shared then committedState m else workingState m

end AlephZero
