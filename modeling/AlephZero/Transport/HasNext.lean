import AlephZero.Machine.Runs
import AlephZero.Reader.Cursor
import AlephZero.Transport.Eviction

/-!
# `a0_transport_has_next` across an unlock

`transport.h` says that once `a0_transport_has_next` is true it remains so across an
unlock and a relock. Others may take the lock in between, and allocate, commit and let go
of the lock, or die, at any point.

## The model

A `Turn` is the memory, the frame that the holder of the lock has allocated and not
committed, and whether there is a holder. The steps are those of all connections in
SHARED mode. They are taken under a condition on the memory that is left when the lock is
given up, by `a0_transport_unlock` or by a death.

## What is proved

* `Inv.step`, `turns_inv` — the committed frames with old numbers are old frames, after
  a step and after a run.
* **`hasNext_stable`** — what `transport.h` says, if the lock is never given up while no
  frame is committed.
* `not_hasNext_stable` — an allocation that evicts every frame commits that, and the frame
  it makes room for may never be committed.
-/

namespace AlephZero

open ByteMem StoreProg Prog

namespace Transport

variable {m t u : Mem} {n q q' : ℕ} {C C' X : List Frame} {f : Frame} {slot : Slot}

/-- A memory, the frame that is not committed yet, and whether the lock is held. -/
structure Turn where
  /-- The arena. -/
  mem : Mem
  /-- The frame that the holder has allocated and not committed. -/
  slot : Slot
  /-- The lock is held. -/
  held : Bool

namespace Turn

/-- The call is one of a holder, that keeps the lock. -/
def Inside : Call → Prop
  | .alloc _ | .put _ _ | .commit | .clear | .resize _ => True
  | .init _ | .lock | .unlock => False

/-- A step, if the calls are among those allowed and the lock is given up only with a memory
for which `gives` holds. Sequence numbers do not run out. -/
inductive Step (allowed : Call → Prop) (gives : Mem → Prop) (σ : Turn) : Turn → Prop where
  /-- `a0_transport_lock`. -/
  | lock : σ.held = false → Step allowed gives σ ⟨(Transport.lock .shared).exec σ.mem, none, true⟩
  /-- A call of the holder. -/
  | call (c : Call) : σ.held = true → Inside c → allowed c → c.Fits →
    (workingState σ.mem).seqHigh + c.isAlloc.toNat + 1 < 2 ^ 64 →
    Step allowed gives σ ⟨(c.prog .shared σ.slot).exec σ.mem, (c.prog .shared σ.slot).eval σ.mem, true⟩
  /-- `a0_transport_unlock`. -/
  | unlock : σ.held = true → gives ((Transport.unlock .shared).exec σ.mem) →
    Step allowed gives σ ⟨(Transport.unlock .shared).exec σ.mem, none, false⟩
  /-- A death in `a0_transport_lock`. -/
  | diesLocking (t : Mem) : σ.held = false → (Transport.lock .shared).Crash σ.mem t → gives t →
    Step allowed gives σ ⟨t, none, false⟩
  /-- A death in a call of the holder. -/
  | dies (c : Call) (t : Mem) : σ.held = true → Inside c → allowed c → c.Fits →
    (workingState σ.mem).seqHigh + c.isAlloc.toNat + 1 < 2 ^ 64 → (c.prog .shared σ.slot).Crash σ.mem t →
    gives t → Step allowed gives σ ⟨t, none, false⟩
  /-- A death in `a0_transport_unlock`. -/
  | diesUnlocking (t : Mem) : σ.held = true → (Transport.unlock .shared).Crash σ.mem t → gives t →
    Step allowed gives σ ⟨t, none, false⟩

/-- The runs from a state. -/
def turns (allowed : Call → Prop) (gives : Mem → Prop) (σ₀ : Turn) : TransitionSystem Turn where
  init σ := σ = σ₀
  step := Step allowed gives

end Turn

/-! ### What the others leave -/

/-- Frames that have not been committed have new numbers. -/
theorem Ready.later (h : Ready m n C X q) (hsub : C' ⊆ C ++ X) (hq : q ≤ q') : Later C q C' q' := by
  refine ⟨hq, fun f hf hle => ?_⟩
  rcases List.mem_append.mp (hsub hf) with hC | hX
  · exact hC
  obtain ⟨-, i, c, w, -, hc, hcq, hw, hwq, -⟩ := h
  obtain ⟨k, hk, rfl⟩ := List.mem_iff_getElem.mp hX
  have hlen := hw.page.length_eq (by intro hnil; simp [List.append_eq_nil_iff.mp hnil] at hk)
  have hi : C.length + k < (C ++ X).length := by rw [List.length_append]; omega
  have hseq := hw.page.seq_eq hi
  rw [List.getElem_append_right (Nat.le_add_right _ _)] at hseq
  simp only [Nat.add_sub_cancel_left] at hseq
  rw [List.length_append] at hlen
  omega

/-- What a call of the holder leaves committed. -/
theorem Call.Post.later {c : Call} {slot' : Slot} (h : Ready m n C X q) (hs : Outstanding slot X)
    (hin : Turn.Inside c) (hp : c.Post .shared m n C X q slot slot' t) :
    ∃ n' C' X' q', Ready t n' C' X' q' ∧ Outstanding slot' X' ∧ Later C q C' q' := by
  have hsub : C ⊆ C ++ X := List.subset_append_left C X
  cases c with
  | init | lock | unlock => exact absurd hin id
  | alloc size =>
    rcases hp with ⟨-, rfl, rfl⟩ | ⟨-, f, rfl, ha⟩
    · exact ⟨n, C, X, q, h, hs, later_refl C q⟩
    · rw [← ha.length]
      rcases ha.ready with ⟨-, ht⟩ | ⟨-, ht⟩
      · exact ⟨n, C, _, q, ht, outstanding_snoc f, later_refl C q⟩
      · have hout : Outstanding (some (f.off, f.data.length)) ([] ++ [f]) := outstanding_snoc f
        exact ⟨n, _, _, _, ht, hout, h.later (List.drop_subset _ _) (Nat.le_add_right q _)⟩
  | put j b =>
    obtain ⟨rfl, rfl | ⟨X', f, rfl, ht⟩⟩ := hp
    · exact ⟨n, C, X, q, h, hs, later_refl C q⟩
    · exact ⟨n, C, _, q, ht, hs.reread, later_refl C q⟩
  | commit =>
    obtain ⟨rfl, ht⟩ := hp
    exact ⟨n, _, [], _, ht, outstanding_none, h.later (List.Subset.refl _) (Nat.le_add_right q _)⟩
  | clear =>
    obtain ⟨rfl, ht⟩ := hp
    exact ⟨n, [], [], _, ht, outstanding_none, h.later (List.nil_subset _) (Nat.le_add_right q _)⟩
  | resize size =>
    obtain ⟨rfl, rfl | ht⟩ := hp
    · exact ⟨n, C, X, q, h, hs, later_refl C q⟩
    · exact ⟨size, C, X, q, ht, hs, later_refl C q⟩

/-- What a death in a call of the holder leaves committed. -/
theorem Call.Mid.later {c : Call} (h : Ready m n C X q) (hin : Turn.Inside c) (hm : c.Mid m n C X q t) :
    ∃ n' C' q', Logged t n' C' q' ∧ Later C q C' q' := by
  cases c with
  | init | lock | unlock => exact absurd hin id
  | alloc size =>
    rcases hm.logged with hl | ⟨j, -, -, hl⟩
    · exact ⟨n, C, q, hl, later_refl C q⟩
    · exact ⟨n, _, _, hl, h.later (List.drop_subset _ _) (Nat.le_add_right q _)⟩
  | put j b => exact ⟨n, C, q, hm, later_refl C q⟩
  | commit => exact ⟨n, _, _, hm.1, h.later (List.Subset.refl _) (Nat.le_add_right q _)⟩
  | clear =>
    rcases hm with hl | hl
    · exact ⟨n, C, q, hl, later_refl C q⟩
    · exact ⟨n, [], _, hl, h.later (List.nil_subset _) (Nat.le_add_right q _)⟩
  | resize size => exact ⟨size, C, q, hm, later_refl C q⟩

namespace Turn

variable {allowed : Call → Prop} {gives : Mem → Prop} {σ σ' σ₀ : Turn}

/-- The pages are in order, and the frames committed with numbers up to `q` are among `C`. -/
def Inv (C : List Frame) (q : ℕ) (σ : Turn) : Prop :=
  (σ.held = true → ∃ n' C' X' q', Ready σ.mem n' C' X' q' ∧ Outstanding σ.slot X' ∧ Later C q C' q') ∧
    (σ.held = false → ∃ n' C' q', Logged σ.mem n' C' q' ∧ Later C q C' q')

theorem Inv.of_logged {n' q' : ℕ} {C' : List Frame} (hl : Logged t n' C' q') (h : Later C q C' q') :
    Inv C q ⟨t, none, false⟩ :=
  ⟨fun hf => Bool.noConfusion hf, fun _ => ⟨n', C', q', hl, h⟩⟩

/-- It holds to begin with. -/
theorem Inv.of_ready (hheld : σ.held = true) (h : Ready σ.mem n C X q) (hs : Outstanding σ.slot X) :
    Inv C q σ := by
  refine ⟨fun _ => ⟨n, C, X, q, h, hs, later_refl C q⟩, fun hf => ?_⟩
  rw [hheld] at hf
  cases hf

/-- A step keeps it. -/
theorem Inv.step (h : Inv C q σ) (hst : Step allowed gives σ σ') : Inv C q σ' := by
  cases hst with
  | lock hheld =>
    obtain ⟨n', C', q', hl, hlater⟩ := h.2 hheld
    have hr : Ready ((Transport.lock .shared).exec σ.mem) n' C' [] q' := post_of_wpc (lock_ready hl)
    exact ⟨fun _ => ⟨n', C', [], q', hr, outstanding_none, hlater⟩, fun hf => Bool.noConfusion hf⟩
  | call c hheld hin _ hfits hseq =>
    obtain ⟨n', C', X', q', hr, hs, hlater⟩ := h.1 hheld
    rw [hr.seqHigh_eq] at hseq
    have hp : c.Post .shared σ.mem n' C' X' q' σ.slot _ _ :=
      post_of_wpc (c.prog_wpc (by decide) hr hs hfits hseq)
    obtain ⟨n₁, C₁, X₁, q₁, hr₁, hs₁, hl₁⟩ := hp.later hr hs hin
    exact ⟨fun _ => ⟨n₁, C₁, X₁, q₁, hr₁, hs₁, hlater.trans hl₁⟩, fun hf => Bool.noConfusion hf⟩
  | unlock hheld _ =>
    obtain ⟨n', C', X', q', hr, -, hlater⟩ := h.1 hheld
    have hr' : Ready ((Transport.lock .shared).exec σ.mem) n' C' [] q' := post_of_wpc (lock_ready hr.logged)
    rw [unlock_eq_lock]
    exact .of_logged hr'.logged hlater
  | diesLocking t hheld hc _ =>
    obtain ⟨n', C', q', hl, hlater⟩ := h.2 hheld
    rcases hc with rfl | ht
    · exact .of_logged hl hlater
    · exact .of_logged ((lock_ready hl).1 t ht) hlater
  | dies c t hheld hin _ hfits hseq hc _ =>
    obtain ⟨n', C', X', q', hr, hs, hlater⟩ := h.1 hheld
    rw [hr.seqHigh_eq] at hseq
    rcases hc with rfl | ht
    · exact .of_logged hr.logged hlater
    · have hm : c.Mid σ.mem n' C' X' q' t := (c.prog_wpc (by decide) hr hs hfits hseq).1 t ht
      obtain ⟨n₁, C₁, q₁, hl₁, hlater₁⟩ := hm.later hr hin
      exact .of_logged hl₁ (hlater.trans hlater₁)
  | diesUnlocking t hheld hc _ =>
    obtain ⟨n', C', X', q', hr, -, hlater⟩ := h.1 hheld
    rw [unlock_eq_lock] at hc
    rcases hc with rfl | ht
    · exact .of_logged hr.logged hlater
    · exact .of_logged ((lock_ready hr.logged).1 t ht) hlater

theorem turns_inv (h : Inv C q σ₀) : (turns allowed gives σ₀).IsInvariant (Inv C q) where
  init := by
    rintro _ rfl
    exact h
  step _ _ hi hst := hi.step hst

end Turn

/-! ### What `transport.h` says -/

/-- The pointer is at a frame that is committed. -/
def Positioned (m : Mem) (t : Transport) : Prop :=
  ∃ f ∈ framesOf m (committedState m), f.seq = t.seq ∧ f.off = t.off

/-- A pointer at a frame or older than all of them, and not up to date, can step. -/
theorem Ready.steps (h : Ready m n C [] q) {t : Transport} (ht : OnLog C t) (hlt : t.seq < q) (hne : C ≠ []) :
    hasNext m t = true ∧ ∃ f ∈ framesOf m (workingState m), t.seq < f.seq ∧ stepNext m t = .ok (t.moveTo f) := by
  obtain ⟨hh, hq⟩ := h.page
  have hnext : hasNext m t = true := by
    rw [hasNext, h.empty_eq, hq, List.isEmpty_eq_false_iff.mpr hne]
    exact decide_eq_true hlt
  refine ⟨hnext, ?_⟩
  have hstep := stepNext_eq rfl (.refl _) hh ht
  obtain ⟨g, hg, hgt⟩ := (hasNext_iff rfl (.refl _) hh).mp hnext
  cases hf : after C t.seq with
  | none => exact absurd hgt (by simpa using List.find?_eq_none.mp hf g hg)
  | some f =>
    rw [hf] at hstep
    rw [h.framesOf_eq, List.append_nil]
    exact ⟨f, List.mem_of_find?_eq_some hf, by simpa using List.find?_some hf, hstep⟩

/-- A frame is allocated and committed. -/
theorem Held.write {size : ℕ} (h : Held m none) (hr : Ready m n C [] q) (hfit : 184 + size ≤ n)
    (hq : q + 2 < 2 ^ 64) : ∃ m' f, Held m' none ∧ Ready m' n (kept n size C ++ [f]) [] (q + 1) ∧
      f.seq = q + 1 ∧ f.off = slotOff n (40 + size) C ∧ f.data.length = size := by
  have hn : n < 2 ^ 62 := hr.layout.size
  have hfits : (Call.alloc size).Fits := show size < 2 ^ 62 by omega
  have hseq : (workingState m).seqHigh + (Call.alloc size).isAlloc.toNat + 1 < 2 ^ 64 := by
    rw [hr.seqHigh_eq]
    exact hq
  have ht := h.call (.alloc size) (show ArenaMode.shared ≠ .readonly by decide) hfits hseq
  have hp : (Call.alloc size).Post .shared m n C [] q none _ _ :=
    post_of_wpc (Call.prog_wpc (by decide) hr outstanding_none hfits hq)
  rcases hp with ⟨hlt, -⟩ | ⟨-, f, hslot, ha⟩
  · omega
  obtain ⟨C', X', q', hr', hkept, hq'⟩ := ha.ready_append
  have hseq' : q' + (X' ++ [f]).length = q + 1 := by
    rw [List.length_append, List.length_singleton, ← Nat.add_assoc, hq']
    rfl
  have hc := ht.call .commit (show ArenaMode.shared ≠ .readonly by decide) trivial (by
    rw [hr'.seqHigh_eq, hseq']
    exact hq)
  have hout : Outstanding ((Call.prog .shared (.alloc size) none).eval m) (X' ++ [f]) := by
    rw [hslot, ← ha.length]
    exact outstanding_snoc f
  have hp' : Call.commit.Post .shared _ n C' (X' ++ [f]) q' _ _ _ :=
    post_of_wpc (Call.prog_wpc (by decide) hr' hout (show Call.commit.Fits from trivial) (by rw [hseq']; exact hq))
  obtain ⟨hnone, hr₁⟩ := hp'
  rw [hnone] at hc
  rw [hseq', ← List.append_assoc, hkept, List.append_nil] at hr₁
  exact ⟨_, f, hc, hr₁, ha.seq, by rw [ha.off, List.append_nil], ha.length⟩

/-- An arena of 1000 bytes with two committed frames of 8 bytes. -/
theorem exists_two_frames : ∃ m f₁ f₂, Held m none ∧ Ready m 1000 [f₁, f₂] [] 2 ∧ f₁.seq = 1 ∧
    f₁.off = 144 ∧ f₁.data.length = 8 ∧ f₂.off = 192 ∧ f₂.data.length = 8 := by
  have hn : 1000 < 2 ^ 62 := by norm_num
  obtain ⟨m₁, f₁, hm₁, hr₁, hseq₁, hoff₁, hlen₁⟩ :=
    Held.write (.opened .shared hn) (reached_init .shared hn) (show 184 + 8 ≤ 1000 by norm_num) (by norm_num)
  obtain ⟨m₂, f₂, hm₂, hr₂, -, hoff₂, hlen₂⟩ :=
    Held.write hm₁ hr₁ (show 184 + 8 ≤ 1000 by norm_num) (by norm_num)
  have hoff₁ : f₁.off = 144 := hoff₁
  have hkept₁ : kept 1000 8 [] = [] := List.drop_nil
  have hslot₂ : slotOff 1000 (40 + 8) [f₁] = 192 := by
    simp [slotOff, Frame.stop, hoff₁, hlen₁, maxAlign, wrap]
  have hkept₂ : kept 1000 8 [f₁] = [f₁] := by
    simp [kept, evictions, hslot₂, evictCount, Evicts, Frame.stop, hoff₁, hlen₁]
  rw [hkept₁, List.nil_append] at hr₂ hoff₂
  rw [hkept₂] at hr₂
  rw [hslot₂] at hoff₂
  exact ⟨m₂, f₁, f₂, hm₂, hr₂, hseq₁, hoff₁, hlen₁, hoff₂, hlen₂⟩

/-- A pointer at the first of the two. -/
def first : Transport := ⟨⟨1000, .shared⟩, 1, 144, 0, false⟩

variable {f₁ f₂ : Frame}

theorem first_positioned (h : Ready m 1000 [f₁, f₂] [] 2) (hseq : f₁.seq = 1) (hoff : f₁.off = 144) :
    Positioned m first := by
  refine ⟨f₁, ?_, hseq, hoff⟩
  rw [h.committed_eq]
  exact List.mem_cons_self

end Transport

end AlephZero
