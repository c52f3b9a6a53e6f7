import AlephZero.Transport.Session

/-!
# The pointer of a connection

`a0_transport_jump_head`, `a0_transport_step_next` and their companions, on the list
of frames that the page they read describes. What they read of the page are
`seq_low`, `seq_high` and `off_head`, so that any page with these words of a page
that describes a list will do (`SameHead`).

## What is proved

* `empty_iff`, `hasNext_iff`, `jumpHead_nil`, `jumpHead_cons`, `jumpTail_eq`.
* `stepNext_eq` — from a pointer at a frame of the list, or one older than all of
  them, the next step leads to the oldest frame with a greater sequence number.
* `stepPrev_eq` — and a step back to the newest one with a smaller sequence number.
* `frame_moveTo` — a pointer at a frame gives the frame.
-/

namespace AlephZero

open ByteMem IntervalRing

namespace Transport

variable {m : Mem} {n q : ℕ} {c w s : TransportState} {fs pre rest : List Frame} {f g : Frame}
  {t : Transport}

/-! ### Sequence numbers -/

/-- Older frames have smaller sequence numbers. -/
theorem PageOf.pairwise (h : PageOf s fs) : fs.Pairwise fun f g => f.seq < g.seq := by
  rw [← List.pairwise_map (f := Frame.seq), h.seqs]
  exact List.pairwise_lt_range'

theorem PageOf.seq_eq (h : PageOf s fs) {i : ℕ} (hi : i < fs.length) :
    fs[i].seq = s.seqLow + i := by
  have hi' : i < (fs.map Frame.seq).length := by simpa using hi
  have hget : (fs.map Frame.seq)[i] = s.seqLow + i := by
    simp only [h.seqs, List.getElem_range', Nat.one_mul]
  simpa using hget

theorem PageOf.seqLow_eq (h : PageOf s (f :: fs)) : f.seq = s.seqLow := h.seq_eq (i := 0) (by simp)

theorem PageOf.length_eq (h : PageOf s fs) (hne : fs ≠ []) :
    s.seqLow + fs.length = s.seqHigh + 1 := by
  rcases h.high with hh | hh
  · exact hh
  · exact absurd hh.1 hne

theorem PageOf.seq_le (h : PageOf s fs) (hf : f ∈ fs) : s.seqLow ≤ f.seq ∧ f.seq ≤ s.seqHigh := by
  obtain ⟨i, hi, rfl⟩ := List.mem_iff_getElem.mp hf
  have := h.length_eq (List.ne_nil_of_mem hf)
  rw [h.seq_eq hi]
  omega

/-- The oldest frame with a sequence number greater than `q`. -/
def after (fs : List Frame) (q : ℕ) : Option Frame := fs.find? fun f => q < f.seq

theorem after_eq_head (h : q < f.seq) : after (f :: fs) q = some f := by simp [after, h]

/-- The frame after `f` is the next one. -/
theorem PageOf.after_eq_next (h : PageOf s (pre ++ f :: g :: rest)) :
    after (pre ++ f :: g :: rest) f.seq = some g := by
  have hp := List.pairwise_append.mp h.pairwise
  have hfg : f.seq < g.seq := List.rel_of_pairwise_cons hp.2.1 (by simp)
  have hpre : pre.find? (fun x => f.seq < x.seq) = none := by
    rw [List.find?_eq_none]
    intro x hx
    have := hp.2.2 x hx f (by simp)
    simp only [decide_eq_true_eq]
    omega
  simp [after, List.find?_append, hpre, hfg]

/-- The newest frame with a sequence number less than `q`. -/
def before (fs : List Frame) (q : ℕ) : Option Frame := (fs.takeWhile fun f => f.seq < q).getLast?

/-- The frames before `f` are those that stand before it. -/
theorem PageOf.takeWhile_eq (h : PageOf s (pre ++ f :: rest)) :
    (pre ++ f :: rest).takeWhile (fun x => x.seq < f.seq) = pre := by
  have hp := List.pairwise_append.mp h.pairwise
  have hpre : ∀ x ∈ pre, decide (x.seq < f.seq) = true := by
    intro x hx
    exact decide_eq_true (hp.2.2 x hx f List.mem_cons_self)
  rw [List.takeWhile_append_of_pos hpre, List.takeWhile_cons_of_neg (by simp), List.append_nil]

/-- The frame before `g` is the previous one. -/
theorem PageOf.before_eq_prev (h : PageOf s (pre ++ f :: g :: rest)) :
    before (pre ++ f :: g :: rest) g.seq = some f := by
  have hsplit : pre ++ f :: g :: rest = (pre ++ [f]) ++ g :: rest := by simp
  rw [hsplit] at h ⊢
  rw [before, h.takeWhile_eq, List.getLast?_concat]

theorem before_eq_none (h : ∀ f ∈ fs, q ≤ f.seq) : before fs q = none := by
  cases fs with
  | nil => rfl
  | cons f fs =>
    have hf : ¬ f.seq < q := Nat.not_lt.mpr (h f List.mem_cons_self)
    rw [before, List.takeWhile_cons_of_neg (by simpa using hf), List.getLast?_nil]

/-! ### Moving the pointer -/

/-- The words of a page that the pointer is moved by. -/
structure SameHead (w c : TransportState) : Prop where
  seqLow : w.seqLow = c.seqLow
  seqHigh : w.seqHigh = c.seqHigh
  offHead : w.offHead = c.offHead

theorem SameHead.refl (c : TransportState) : SameHead c c := ⟨rfl, rfl, rfl⟩

/-- The pointer is moved to a frame. -/
def moveTo (t : Transport) (f : Frame) : Transport := { t with seq := f.seq, off := f.off }

/-- A pointer is at a frame of the list, or older than all of them. -/
def OnLog (fs : List Frame) (t : Transport) : Prop :=
  (∀ f ∈ fs, t.seq < f.seq) ∨ ∃ f ∈ fs, f.seq = t.seq ∧ f.off = t.off

theorem onLog_moveTo (hf : f ∈ fs) : OnLog fs (t.moveTo f) := .inr ⟨f, hf, rfl, rfl⟩

section Page

variable (hw : workingState m = w) (hs : SameHead w c) (h : Holds m n c fs)
include hw hs h

theorem empty_iff : empty m = true ↔ fs = [] := by
  rw [empty, hw, ← h.page.empty_iff, TransportState.empty, TransportState.empty, hs.seqLow,
    hs.seqHigh]

theorem hasNext_iff : hasNext m t = true ↔ ∃ f ∈ fs, t.seq < f.seq := by
  simp only [hasNext, Bool.and_eq_true, Bool.not_eq_true', decide_eq_true_eq,
    ← Bool.not_eq_true, empty_iff hw hs h, hw, hs.seqHigh]
  constructor
  · rintro ⟨hne, hlt⟩
    have hlen := h.page.length_eq hne
    have hpos := List.length_pos_iff.mpr hne
    refine ⟨fs[fs.length - 1], List.getElem_mem _, ?_⟩
    rw [h.page.seq_eq]
    omega
  · rintro ⟨f, hf, hlt⟩
    exact ⟨List.ne_nil_of_mem hf, hlt.trans_le (h.page.seq_le hf).2⟩

theorem jumpHead_nil (hnil : fs = []) : jumpHead m t = .error .range := by
  rw [jumpHead, if_pos ((empty_iff hw hs h).mpr hnil)]

theorem jumpHead_cons (hcons : fs = f :: rest) : jumpHead m t = .ok (t.moveTo f) := by
  subst hcons
  rw [jumpHead, if_neg (by rw [empty_iff hw hs h]; simp), hw, hs.seqLow, hs.offHead, h.head_off,
    ← h.page.seqLow_eq]
  rfl

/-- A step leads to the oldest frame with a greater sequence number. -/
theorem stepNext_eq (ht : OnLog fs t) :
    stepNext m t = match after fs t.seq with
      | none => .error .range
      | some f => .ok (t.moveTo f) := by
  by_cases hn : hasNext m t = true
  · have hex := (hasNext_iff hw hs h).mp hn
    simp only [stepNext, hn, Bool.not_true, Bool.false_eq_true, if_false, hw, hs.seqLow,
      hs.offHead]
    cases fs with
    | nil => simp at hex
    | cons f fs =>
      have hlow := h.page.seqLow_eq
      split_ifs with hlt
      · rw [after_eq_head (by omega), h.head_off, ← hlow]
        rfl
      · rcases ht with ht | ⟨x, hx, hseq, hoff⟩
        · exact absurd (ht f (by simp)) (by omega)
        -- the pointer is at a frame that is not the newest
        obtain ⟨pre, rest, hsplit⟩ := List.append_of_mem hx
        cases rest with
        | nil =>
          obtain ⟨y, hy, hlt⟩ := hex
          rw [hsplit] at hy
          have hp := h.page.pairwise
          rw [hsplit] at hp
          rcases List.mem_append.mp hy with hy | hy
          · have := (List.pairwise_append.mp hp).2.2 y hy x (by simp)
            omega
          · rw [List.mem_singleton.mp hy] at hlt; omega
        | cons g rest =>
          have hlinks := h.linked.links
          rw [hsplit] at hlinks h ⊢
          have hlink := (List.isChain_append_cons_cons.mp hlinks).2.1
          have hg := h.linked.stored g (by simp)
          rw [← hseq, h.page.after_eq_next, ← hoff, hlink.1, hg.seq]
          rfl
  · have hnone : after fs t.seq = none := by
      rw [after, List.find?_eq_none]
      intro f hf
      rw [hasNext_iff hw hs h] at hn
      simpa using fun hlt => hn ⟨f, hf, hlt⟩
    rw [stepNext, hnone]
    simp [hn]

theorem hasPrev_iff : hasPrev m t = true ↔ ∃ f ∈ fs, f.seq < t.seq := by
  simp only [hasPrev, Bool.and_eq_true, Bool.not_eq_true', decide_eq_true_eq,
    ← Bool.not_eq_true, empty_iff hw hs h, hw, hs.seqLow]
  constructor
  · rintro ⟨hne, hlt⟩
    obtain ⟨f, rest, rfl⟩ := List.exists_cons_of_ne_nil hne
    exact ⟨f, List.mem_cons_self, h.page.seqLow_eq ▸ hlt⟩
  · rintro ⟨f, hf, hlt⟩
    exact ⟨List.ne_nil_of_mem hf, (h.page.seq_le hf).1.trans_lt hlt⟩

/-- A step back leads to the newest frame with a smaller sequence number. -/
theorem stepPrev_eq (ht : OnLog fs t) :
    stepPrev m t = match before fs t.seq with
      | none => .error .range
      | some f => .ok (t.moveTo f) := by
  by_cases hp : hasPrev m t = true
  · have hex := (hasPrev_iff hw hs h).mp hp
    rcases ht with ht | ⟨g, hg, hseq, hoff⟩
    · obtain ⟨f, hf, hlt⟩ := hex
      exact absurd (ht f hf) (by omega)
    -- the pointer is at a frame that is not the oldest
    obtain ⟨pre, rest, hsplit⟩ := List.append_of_mem hg
    rcases List.eq_nil_or_concat pre with rfl | ⟨pre, f, rfl⟩
    · obtain ⟨f, hf, hlt⟩ := hex
      have hlow := (h.page.seq_le hf).1
      rw [hsplit, List.nil_append] at h
      have := h.page.seqLow_eq
      omega
    · rw [List.concat_eq_append, List.append_assoc, List.singleton_append] at hsplit
      have hlinks := h.linked.links
      rw [hsplit] at hlinks h ⊢
      have hlink := (List.isChain_append_cons_cons.mp hlinks).2.1
      have hf := h.linked.stored f (by simp)
      simp only [stepPrev, hp, Bool.not_true, Bool.false_eq_true, if_false]
      rw [← hseq, h.page.before_eq_prev, ← hoff, hlink.2, hf.seq]
      rfl
  · have hnone : before fs t.seq = none := by
      apply before_eq_none
      intro f hf
      rw [hasPrev_iff hw hs h] at hp
      exact Nat.le_of_not_lt fun hlt => hp ⟨f, hf, hlt⟩
    rw [stepPrev, hnone]
    simp [hp]

theorem frame_moveTo (hf : f ∈ fs) : frame m (t.moveTo f) = .ok f.off := by
  have := (h.page.seq_le hf).1
  rw [frame, if_neg]
  · rfl
  · rw [hw, hs.seqLow]
    simp only [moveTo]
    omega

end Page

theorem jumpTail_eq (hw : workingState m = w) (h : Holds m n w (fs ++ [f])) :
    jumpTail m t = .ok (t.moveTo f) := by
  rw [jumpTail, if_neg (by rw [empty_iff hw (.refl w) h]; simp), hw, h.tail_off]
  have hlen := h.page.length_eq (by simp)
  have hseq := h.page.seq_eq (i := fs.length) (by simp)
  rw [List.length_append, List.length_singleton] at hlen
  rw [List.getElem_append_right (by omega)] at hseq
  simp only [Nat.sub_self, List.getElem_cons_zero] at hseq
  rw [moveTo, hseq, show w.seqHigh = w.seqLow + fs.length by omega]

/-! ### With nothing left to commit -/

theorem Ready.page {C : List Frame} (h : Ready m n C [] q) :
    Holds m n (workingState m) C ∧ (workingState m).seqHigh = q := by
  obtain ⟨-, i, c, w, hv, -, -, hw, hq, -⟩ := h
  rw [hv.workingState_eq]
  exact ⟨List.append_nil C ▸ hw, hq⟩

theorem Ready.empty_eq {C : List Frame} (h : Ready m n C [] q) : empty m = C.isEmpty := by
  rw [Bool.eq_iff_iff, empty_iff rfl (.refl _) h.page.1, List.isEmpty_iff]

end Transport

end AlephZero
