import AlephZero.Transport.Held

/-!
# Requests that do not fit

`a0_transport_alloc` adds the size of the frame header to the requested size, and
compares the end of a frame of this size in either of two places with the size of the
arena. The sums are `size_t`: near the top of the range they wrap around to less than
the size of the arena, and the request is not rejected.

## What is proved

* `findSlot_eq_error` — what the two comparisons say, on the sums as they wrap.
* **`fitsExactly_iff`** — a request is served exactly if it fits, or rejected and nothing
  stored, exactly if what is left of a sum that wraps is too large as well
  (`Unwrapped`).
* `not_fitsExactly` — so a request of 2^64 - 1 bytes is served.
-/

namespace AlephZero

open ByteMem StoreProg Prog

namespace Transport

variable {mode : ArenaMode} {m : Mem} {n q size k : ℕ} {C X : List Frame} {slot : Slot} {e : Err}

theorem wrap_add_wrap (a b : ℕ) : wrap (a + wrap b) = wrap (a + b) := by
  rw [wrap, wrap, wrap, Nat.add_mod_mod]

/-- The offset behind the newest frame, where the next one goes if it ends in time. -/
def behindTail (m : Mem) : ℕ := maxAlign (frameEnd m (workingState m).offTail)

theorem Ready.nonempty_iff (h : Ready m n C X q) : nonempty m = true ↔ C ++ X ≠ [] := by
  obtain ⟨-, i, c, w, hv, -, -, hw, -⟩ := h
  rw [nonempty, empty, hv.workingState_eq, Bool.not_eq_true', ← Bool.not_eq_true, hw.page.empty_iff]

/-- It is in the arena, or where the arena ends. -/
theorem Ready.behindTail (h : Ready m n C X q) (hne : nonempty m = true) :
    144 ≤ behindTail m ∧ behindTail m ≤ n + 15 := by
  obtain ⟨ys, g, hg⟩ := (List.eq_nil_or_concat (C ++ X)).resolve_left (h.nonempty_iff.mp hne)
  rw [List.concat_eq_append] at hg
  obtain ⟨-, i, c, w, hv, -, -, hw, -⟩ := h
  rw [hg] at hw
  have hlo := stop_ge hw.layout (f := g) (by simp)
  have hup := hw.layout.upper g (by simp)
  have hn := hw.layout.size
  rw [Transport.behindTail, hv.workingState_eq, hw.tail_off, frameEnd_eq hw (by simp), maxAlign_eq (by omega)]
  omega

theorem tooLarge_iff {off : ℕ} : (if arenaSize m < k then .error .frameLarge else .ok off) = Except.error e ↔
    e = .frameLarge ∧ arenaSize m < k := by
  split_ifs with h
  · simp [h, eq_comm]
  · simp [h]

/-- `a0_transport_find_slot` fails if the frame ends too late in both places. -/
theorem findSlot_eq_error : findSlot m k = .error e ↔ e = .frameLarge ∧
    arenaSize m < wrap (workspaceOff + k) ∧ (nonempty m = true → arenaSize m ≤ wrap (behindTail m + k)) := by
  rw [findSlot, tooLarge_iff, nonempty]
  cases empty m with
  | true => simp
  | false =>
    rw [if_neg (by decide), ← behindTail]
    by_cases hle : arenaSize m ≤ wrap (behindTail m + k)
    · simp [hle]
    · simp [hle, Nat.le_of_lt (Nat.lt_of_not_le hle)]

/-- `a0_transport_alloc` fails if there is no slot, and stores nothing then. -/
theorem alloc_eq_error (hmode : mode ≠ .readonly) :
    (alloc mode size).eval m = some (.error e) ↔ findSlot m (wrap (40 + size)) = .error e := by
  rw [alloc, if_neg hmode]
  cases hslot : findSlot m (wrap (40 + size)) with
  | error e' => simp [hslot]
  | ok off =>
    simp only [eval_bind, eval_read, exec_read, hslot, reduceCtorEq, iff_false]
    split_ifs
    · simp only [eval_bind, eval_pure, Option.some.injEq, reduceCtorEq, not_false_eq_true]
    · simp only [eval_pure, reduceCtorEq, not_false_eq_true]

theorem alloc_exec_of_error (hmode : mode ≠ .readonly) (h : findSlot m (wrap (40 + size)) = .error e) :
    (alloc mode size).exec m = m := by
  rw [alloc, if_neg hmode]
  simp [h]

/-- A request is rejected exactly if it does not fit, and then nothing is stored;
otherwise it is served, inside the arena and behind its header. -/
structure FitsExactly (mode : ArenaMode) (m : Mem) (size : ℕ) : Prop where
  rejected : (alloc mode size).eval m = some (.error .frameLarge) ↔ arenaSize m < workspaceOff + 40 + size
  unchanged : arenaSize m < workspaceOff + 40 + size → (alloc mode size).exec m = m
  served : workspaceOff + 40 + size ≤ arenaSize m → ∃ off, (alloc mode size).eval m = some (.ok off) ∧
    frameDataSize ((alloc mode size).exec m) off = size ∧ workspaceOff ≤ off ∧ off + 40 + size ≤ arenaSize m

/-- What is left of a sum that wraps is too large. -/
def Unwrapped (m : Mem) (size : ℕ) : Prop :=
  (2 ^ 64 ≤ workspaceOff + 40 + size → arenaSize m < workspaceOff + 40 + size - 2 ^ 64) ∧
    (nonempty m = true → 2 ^ 64 ≤ behindTail m + 40 + size →
      arenaSize m ≤ behindTail m + 40 + size - 2 ^ 64)

/-- A request that fits is served. -/
theorem Ready.alloc_fits (h : Ready m n C X q) (hmode : mode ≠ .readonly) (hq : q + X.length + 2 < 2 ^ 64)
    (hfit : 184 + size ≤ n) : ∃ f : Frame, (Transport.alloc mode size).eval m = some (.ok f.off) ∧
      Allocated m ((Transport.alloc mode size).exec m) n C X q size f := by
  have hn : n < 2 ^ 62 := h.layout.size
  have hsize : size < 2 ^ 63 := by omega
  rcases post_of_wpc (alloc_ready hmode h hq hsize) with ⟨hlt, -⟩ | ⟨-, f, hf⟩
  · omega
  · exact ⟨f, hf⟩

/-- What a request that does not fit comes to is the same as what is left of the sums. -/
theorem unwrapped_iff (h : Ready m n C X q) (hsize : size < 2 ^ 64) (hlarge : n < 184 + size) :
    findSlot m (wrap (40 + size)) = .error .frameLarge ↔ Unwrapped m size := by
  have hn : n < 2 ^ 62 := h.layout.size
  rw [findSlot_eq_error, h.arenaSize_eq, wrap_add_wrap, wrap_add_wrap, workspaceOff_eq, Unwrapped,
    h.arenaSize_eq, workspaceOff_eq]
  simp only [true_and, ← Nat.add_assoc]
  unfold wrap
  constructor
  · rintro ⟨h₁, h₂⟩
    refine ⟨fun hw => by omega, fun hne hw => ?_⟩
    have ha := h.behindTail hne
    have h₂ := h₂ hne
    omega
  · rintro ⟨h₁, h₂⟩
    refine ⟨by omega, fun hne => ?_⟩
    have ha := h.behindTail hne
    have h₂ := h₂ hne
    omega

/-- **What does not fit is rejected**, and nothing else, exactly if what is left of a sum
that wraps is too large as well. -/
theorem fitsExactly_iff (h : Held m slot) (hmode : mode ≠ .readonly) (hq : (workingState m).seqHigh + 2 < 2 ^ 64)
    (hsize : size < 2 ^ 64) : FitsExactly mode m size ↔ Unwrapped m size := by
  obtain ⟨n, C, X, q, hr, -⟩ := h.ready
  have hn : n < 2 ^ 62 := hr.layout.size
  rw [hr.seqHigh_eq] at hq
  by_cases hlarge : n < 184 + size
  · rw [← unwrapped_iff hr hsize hlarge, ← alloc_eq_error hmode]
    constructor
    · intro hf
      exact hf.rejected.mpr (by rw [hr.arenaSize_eq, workspaceOff_eq]; omega)
    · intro he
      have hslot := (alloc_eq_error hmode).mp he
      refine ⟨iff_of_true he ?_, fun _ => alloc_exec_of_error hmode hslot, fun hfit => ?_⟩
      · rw [hr.arenaSize_eq, workspaceOff_eq]; omega
      · rw [hr.arenaSize_eq, workspaceOff_eq] at hfit; omega
  · have hw : Unwrapped m size := by
      refine ⟨fun hw => ?_, fun hne hw => ?_⟩
      · rw [workspaceOff_eq] at hw; omega
      · have := hr.behindTail hne; omega
    refine iff_of_true ?_ hw
    have hfit' : 184 + size ≤ n := by omega
    obtain ⟨f, he, ha⟩ := hr.alloc_fits hmode hq hfit'
    have hfit : 144 + (40 + size) ≤ n := by omega
    have hspec := slotOff_spec hr.layout hfit
    rw [← ha.off] at hspec
    refine ⟨?_, fun hl => ?_, fun _ => ⟨f.off, he, ?_, ?_, ?_⟩⟩
    · rw [he, hr.arenaSize_eq, workspaceOff_eq]
      simp
      omega
    · rw [hr.arenaSize_eq, workspaceOff_eq] at hl; omega
    · rw [ha.stored.size, ha.length]
    · rw [workspaceOff_eq]; exact hspec.1
    · rw [hr.arenaSize_eq]; omega

theorem fitsExactly_iff_small : FitsExactly .shared (reached .shared [.init 1000]) 8 := by
  have hr := reached_init .shared (show 1000 < 2 ^ 62 by norm_num)
  have hm : Held (reached .shared [.init 1000]) none := .opened .shared (by norm_num)
  refine (fitsExactly_iff hm (by decide) ?_ (by norm_num)).mpr ⟨fun hw => ?_, fun hne _ => ?_⟩
  · rw [hr.seqHigh_eq]; norm_num
  · rw [workspaceOff_eq] at hw; norm_num at hw
  · exact absurd rfl (hr.nonempty_iff.mp hne)

/-- A request of 2^64 - 1 bytes to an arena of 1000 is served: the end of the frame wraps around
to 183. -/
theorem not_fitsExactly : ¬ FitsExactly .shared (reached .shared [.init 1000]) (2 ^ 64 - 1) := by
  intro hf
  have hr := reached_init .shared (show 1000 < 2 ^ 62 by norm_num)
  have hslot : findSlot (reached .shared [.init 1000]) (wrap (40 + (2 ^ 64 - 1))) = .error .frameLarge :=
    (alloc_eq_error (by decide)).mp (hf.rejected.mpr (by rw [hr.arenaSize_eq, workspaceOff_eq]; norm_num))
  have hlt := ((unwrapped_iff hr (by norm_num) (by norm_num)).mp hslot).1 (by rw [workspaceOff_eq]; norm_num)
  rw [hr.arenaSize_eq, workspaceOff_eq] at hlt
  norm_num at hlt

end Transport

end AlephZero
