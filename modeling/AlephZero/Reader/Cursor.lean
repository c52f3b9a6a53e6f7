import AlephZero.Reader.Basic
import AlephZero.Transport.Pointer
import Mathlib.Data.List.Find
import Mathlib.Data.List.Nodup

/-!
# The pointer of a reader

A reader is to read the oldest frame whose number is at least some bound, and has a
pointer that may be at a frame that is long gone. The two agree on which frames are
still to be read (`Agree`), whatever others write in between (`Agree.later`).

## What is proved

* `runOps_later` — after any writes and clears the frames left with old numbers are old
  frames.
* `OnLog.later` — a pointer at a frame stays at it, or is older than all frames.
* `jumpInit_aim` — a reader that is opened is to read the packets from its starting
  point on.
* `readAlign_eq`, `handleFirst_eq`, `Ready.step_eq` — a reader moves to the oldest frame
  that is still to be read.
-/

namespace AlephZero

open ByteMem StoreProg Prog IntervalRing

namespace Transport

variable {mode : ArenaMode} {m : Mem} {n q q' b c : ℕ} {C C' fs : List Frame} {f : Frame} {t : Transport}

/-! ### What others do -/

/-- The frames left with old numbers are old frames. -/
def Later (C : List Frame) (q : ℕ) (C' : List Frame) (q' : ℕ) : Prop :=
  q ≤ q' ∧ ∀ f ∈ C', f.seq ≤ q → f ∈ C

theorem later_refl (C : List Frame) (q : ℕ) : Later C q C q := ⟨le_rfl, fun _ hf _ => hf⟩

theorem Later.trans {C'' : List Frame} {q'' : ℕ} (h : Later C q C' q') (h' : Later C' q' C'' q'') :
    Later C q C'' q'' :=
  ⟨h.1.trans h'.1, fun f hf hle => h.2 f (h'.2 f hf (hle.trans h.1)) hle⟩

/-- A write, as far as others can see it. -/
theorem append_later {payload : List UInt8} (hmode : mode ≠ .readonly) (h : Ready m n C [] q)
    (hq : q + 2 < 2 ^ 64) (hlen : payload.length < 2 ^ 63) :
    ∃ C' q', Ready ((append mode payload).exec m) n C' [] q' ∧ q' ≤ q + 1 ∧ Later C q C' q' := by
  rcases post_of_wpc (append_ready hmode h hq hlen) with ⟨-, -, hsame⟩ | ⟨-, f, -, hseq, -, hready⟩
  · exact ⟨C, q, by rwa [hsame], Nat.le_succ q, later_refl C q⟩
  · refine ⟨_, _, hready, le_rfl, Nat.le_succ q, fun g hg hle => ?_⟩
    rcases List.mem_append.mp hg with hg | hg
    · rw [List.append_nil] at hg
      exact List.drop_subset _ _ hg
    · rw [List.mem_singleton.mp hg, hseq, List.length_nil] at hle
      omega

/-- Writes and clears leave nothing uncommitted. -/
theorem runOps_later {ops : List (FifoLog.Op (List UInt8))} (hmode : mode ≠ .readonly)
    (h : Ready m n C [] q) (hsmall : ∀ op ∈ ops, Small op) (hq : q + ops.length + 1 < 2 ^ 64) :
    ∃ C' q', Ready ((runOps mode ops).exec m) n C' [] q' ∧ Later C q C' q' := by
  induction ops generalizing m C q with
  | nil => exact ⟨C, q, h, later_refl C q⟩
  | cons op ops ih =>
    rw [List.length_cons] at hq
    have hrest : ∀ op ∈ ops, Small op := fun o ho => hsmall o (List.mem_cons_of_mem op ho)
    cases op with
    | write payload =>
      obtain ⟨C₁, q₁, h₁, hq₁, hl₁⟩ :=
        append_later hmode h (by omega) (hsmall (.write payload) List.mem_cons_self)
      obtain ⟨C₂, q₂, h₂, hl₂⟩ := ih h₁ hrest (by omega)
      exact ⟨C₂, q₂, h₂, hl₁.trans hl₂⟩
    | clear =>
      have hclear := post_of_wpc (clear_ready h)
      obtain ⟨C₂, q₂, h₂, hl₂⟩ := ih hclear hrest (by simp; omega)
      exact ⟨C₂, q₂, h₂, Later.trans ⟨Nat.le_add_right _ _, fun _ hf => absurd hf List.not_mem_nil⟩ hl₂⟩

theorem PageOf.eq_of_seq {s : TransportState} {g : Frame} (h : PageOf s fs) (hf : f ∈ fs) (hg : g ∈ fs)
    (he : f.seq = g.seq) : f = g := by
  have hn : (fs.map Frame.seq).Nodup := by
    rw [h.seqs]
    exact List.nodup_range'
  exact List.inj_on_of_nodup_map hn hf hg he

/-- A pointer at a frame stays at it, or is older than all frames. -/
theorem OnLog.later {m' : Mem} {n' : ℕ} (ht : OnLog C t) (hle : t.seq ≤ q) (h : Ready m n C [] q)
    (h' : Ready m' n' C' [] q') (hl : Later C q C' q') : OnLog C' t := by
  obtain ⟨hh', hq'⟩ := h'.page
  by_cases hall : ∀ f ∈ C', t.seq < f.seq
  · exact .inl hall
  right
  push Not at hall
  obtain ⟨g, hg, hgt⟩ := hall
  -- the numbers from `g` on are all there
  have hlow := (hh'.page.seq_le hg).1
  have hlen := hh'.page.length_eq (List.ne_nil_of_mem hg)
  have hge := hl.1
  rw [hq'] at hlen
  have hi : t.seq - (workingState m').seqLow < C'.length := by omega
  have hseq := hh'.page.seq_eq hi
  rw [Nat.add_sub_cancel' (by omega)] at hseq
  have hf := List.getElem_mem hi
  refine ⟨_, hf, hseq, ?_⟩
  have hfC := hl.2 _ hf (by omega)
  rcases ht with hnew | ⟨x, hx, hxs, hxo⟩
  · exact absurd (hnew _ hfC) (by omega)
  · rw [← hxo]
    exact congrArg Frame.off (h.page.1.page.eq_of_seq hfC hx (hseq.trans hxs.symm))

/-! ### What is still to be read -/

/-- The oldest frame with a number of at least `b`. -/
def since (fs : List Frame) (b : ℕ) : Option Frame := fs.find? fun f => b ≤ f.seq

/-- The same frames have a number of at least `b` and of at least `c`. -/
def Agree (fs : List Frame) (b c : ℕ) : Prop := ∀ f ∈ fs, b ≤ f.seq ↔ c ≤ f.seq

theorem since_congr (h : Agree fs b c) : since fs b = since fs c :=
  List.find?_congr fun f hf => by rw [decide_eq_decide]; exact h f hf

theorem since_eq_none : since fs b = none ↔ ∀ f ∈ fs, f.seq < b := by
  simp only [since, List.find?_eq_none, decide_eq_true_eq, not_le]

theorem PageOf.since_eq_some {s : TransportState} (h : PageOf s fs) (hf : since fs b = some f) :
    f ∈ fs ∧ b ≤ f.seq ∧ ∀ g ∈ fs, b ≤ g.seq → f.seq ≤ g.seq := by
  obtain ⟨hb, pre, post, rfl, hpre⟩ := List.find?_eq_some_iff_append.mp hf
  refine ⟨List.mem_append_right _ List.mem_cons_self, by simpa using hb, fun g hg hbg => ?_⟩
  rcases List.mem_append.mp hg with hg | hg
  · exact absurd hbg (by simpa using hpre g hg)
  · rcases List.mem_cons.mp hg with rfl | hg
    · exact le_rfl
    · exact (List.rel_of_pairwise_cons (List.pairwise_append.mp h.pairwise).2.1 hg).le

theorem since_cons_of_le (h : b ≤ f.seq) : since (f :: fs) b = some f := by simp [since, h]

theorem PageOf.since_eq {s : TransportState} (h : PageOf s fs) (hf : f ∈ fs) : since fs f.seq = some f := by
  cases hs : since fs f.seq with
  | none => exact absurd (since_eq_none.mp hs f hf) (lt_irrefl _)
  | some g =>
    obtain ⟨hg, hle, hleast⟩ := h.since_eq_some hs
    rw [h.eq_of_seq hg hf (le_antisymm (hleast f hf le_rfl) hle)]

theorem Agree.later (h : Agree C b c) (hb : b ≤ q + 1) (hc : c ≤ q + 1) (hl : Later C q C' q') :
    Agree C' b c := by
  intro f hf
  by_cases hle : f.seq ≤ q
  · exact h f (hl.2 f hf hle)
  · exact ⟨fun _ => by omega, fun _ => by omega⟩

/-- A pointer is at a frame or older than all of them, and the frames to be read are
those with a number of at least `c`, which is its own or the one after. -/
structure Aim (C : List Frame) (q b c : ℕ) (t : Transport) : Prop where
  onLog : OnLog C t
  seq_le : t.seq ≤ q
  bound_le : b ≤ q + 1
  near : t.seq ≤ c ∧ c ≤ t.seq + 1
  agree : Agree C b c

theorem Aim.later {m' : Mem} (ha : Aim C q b c t) (h : Ready m n C [] q) (h' : Ready m' n C' [] q')
    (hl : Later C q C' q') : Aim C' q' b c t where
  onLog := ha.onLog.later ha.seq_le h h' hl
  seq_le := ha.seq_le.trans hl.1
  bound_le := ha.bound_le.trans (Nat.succ_le_succ hl.1)
  near := ha.near
  agree := ha.agree.later ha.bound_le (ha.near.2.trans (Nat.succ_le_succ ha.seq_le)) hl

/-- A pointer that is older than all frames has to step. -/
theorem Aim.step (ha : Aim C q b c t) (hall : ∀ f ∈ C, t.seq < f.seq) : Aim C q b (t.seq + 1) t where
  onLog := ha.onLog
  seq_le := ha.seq_le
  bound_le := ha.bound_le
  near := ⟨Nat.le_succ _, le_rfl⟩
  agree f hf := (ha.agree f hf).trans ⟨fun _ => hall f hf, fun hlt => ha.near.2.trans hlt⟩

section Ready

variable (h : Ready m n C [] q)
include h

/-- A pointer at a frame that has been read. -/
theorem Ready.aim_moveTo (hf : f ∈ C) : Aim C q (f.seq + 1) (f.seq + 1) (t.moveTo f) where
  onLog := onLog_moveTo hf
  seq_le := h.page.2 ▸ (h.page.1.page.seq_le hf).2
  bound_le := Nat.succ_le_succ (h.page.2 ▸ (h.page.1.page.seq_le hf).2)
  near := ⟨Nat.le_succ _, le_rfl⟩
  agree _ _ := Iff.rfl

/-- The pointer of a reader that has to step goes to the frame that is to be read. -/
theorem Ready.step_eq (ha : Aim C q b (t.seq + 1) t) :
    (hasNext m t = false ∧ since C b = none) ∨
    ∃ f, hasNext m t = true ∧ since C b = some f ∧ stepNext m t = .ok (t.moveTo f) := by
  have hstep := stepNext_eq rfl (.refl _) h.page.1 ha.onLog
  have hnext := hasNext_iff rfl (.refl _) h.page.1 (t := t)
  rw [show after C t.seq = since C b from (since_congr ha.agree).symm] at hstep
  cases hs : since C b with
  | none =>
    refine .inl ⟨?_, rfl⟩
    rw [← Bool.not_eq_true, hnext]
    rintro ⟨f, hf, hlt⟩
    exact absurd ((ha.agree f hf).mpr hlt) (not_le.mpr (since_eq_none.mp hs f hf))
  | some f =>
    obtain ⟨hf, hb, -⟩ := h.page.1.page.since_eq_some hs
    rw [hs] at hstep
    exact .inr ⟨f, hnext.mpr ⟨f, hf, (ha.agree f hf).mp hb⟩, rfl, hstep⟩

/-- The pointer is at a frame, or older than all of them. -/
theorem Ready.iterValid_eq (ha : Aim C q b c t) (hne : C ≠ []) :
    (iterValid m t = true ∧ ∃ f ∈ C, t = t.moveTo f) ∨
    iterValid m t = false ∧ ∀ f ∈ C, t.seq < f.seq := by
  obtain ⟨f, hf⟩ := List.exists_mem_of_ne_nil C hne
  have hlow := h.page.1.page.seq_le hf
  simp only [iterValid, h.page.2, ha.seq_le, decide_true, Bool.and_true, decide_eq_true_eq,
    decide_eq_false_iff_not, not_le]
  rcases ha.onLog with hnew | ⟨x, hx, hseq, hoff⟩
  · refine .inr ⟨?_, hnew⟩
    have hlen := h.page.1.page.length_eq hne
    have hpos := List.length_pos_iff.mpr hne
    have hfirst := hnew _ (List.getElem_mem hpos)
    rwa [h.page.1.page.seq_eq hpos, Nat.add_zero] at hfirst
  · refine .inl ⟨hseq ▸ (h.page.1.page.seq_le hx).1, x, hx, ?_⟩
    rw [moveTo, hseq, hoff]

end Ready

end Transport

open Transport

variable {m : Mem} {n q b : ℕ} {C : List Frame} {t : Transport}

/-! ### Where a reader begins -/

/-- The number of the first packet that a reader is to read, when there is the log `log`,
and `last` is the number of the newest packet there has ever been. -/
def startingPoint (log : List (ℕ × List UInt8)) (last : ℕ) : ReaderInit → ℕ
  | .oldest => match log.head? with
    | some e => e.1
    | none => last + 1
  | .mostRecent => match log.getLast? with
    | some e => e.1
    | none => last + 1
  | .awaitNew => match log.getLast? with
    | some e => e.1 + 1
    | none => last + 1

/-- The least number that a pointer is after. -/
def target (behind : Bool) (t : Transport) : ℕ := if behind then t.seq + 1 else t.seq

theorem target_near (behind : Bool) (t : Transport) : t.seq ≤ target behind t ∧ target behind t ≤ t.seq + 1 := by
  cases behind
  · exact ⟨le_rfl, Nat.le_succ _⟩
  · exact ⟨Nat.le_succ _, le_rfl⟩

/-- A pointer that has not been anywhere, when there are no frames. -/
theorem aim_nil (ht : t.seq = 0) (behind : Bool) : Aim [] q (q + 1) (target behind t) t where
  onLog := .inl (by simp)
  seq_le := ht ▸ Nat.zero_le q
  bound_le := le_rfl
  near := target_near behind t
  agree _ hf := absurd hf List.not_mem_nil

theorem arena_jumpInit (m : Mem) (t : Transport) (init : ReaderInit) :
    (jumpInit m t init).arena = t.arena := by
  cases init <;> simp only [jumpInit, jumpHead, jumpTail, moved] <;> split_ifs <;> rfl

/-- An empty transport has no place to jump to. -/
theorem jumpInit_of_empty (init : ReaderInit) (h : empty m = true) : jumpInit m t init = t := by
  cases init <;> simp only [jumpInit, jumpHead, jumpTail, h, if_true, moved]

/-- A reader begins at its starting point. -/
theorem jumpInit_aim (h : Ready m n C [] q) (ht : t.seq = 0) (init : ReaderInit) :
    Aim C q (startingPoint (C.map Frame.entry) q init) (target (init = .awaitNew) (jumpInit m t init))
      (jumpInit m t init) := by
  obtain ⟨hh, hq⟩ := h.page
  rcases C.eq_nil_or_concat with rfl | ⟨fs, f, rfl⟩
  · rw [jumpInit_of_empty init h.empty_eq]
    cases init <;> exact aim_nil ht _
  rw [List.concat_eq_append] at *
  have hlast : f ∈ fs ++ [f] := List.mem_append_right _ (List.mem_singleton_self f)
  have hf : f.seq = q := by
    have hlen := hh.page.length_eq (List.ne_nil_of_mem hlast)
    have hseq := hh.page.seq_eq (i := fs.length) (by simp)
    rw [List.getElem_concat_length rfl] at hseq
    rw [List.length_append, List.length_singleton] at hlen
    omega
  have htail : jumpTail m t = .ok (t.moveTo f) := jumpTail_eq rfl hh
  have hat : Aim (fs ++ [f]) q f.seq f.seq (t.moveTo f) :=
    ⟨onLog_moveTo hlast, hf.le, hf.le.trans (Nat.le_succ q), ⟨le_rfl, Nat.le_succ _⟩, fun _ _ => Iff.rfl⟩
  cases init with
  | oldest =>
    cases hhead : fs ++ [f] with
    | nil => exact absurd hhead (by simp)
    | cons g rest =>
      have hmem : g ∈ fs ++ [f] := hhead ▸ List.mem_cons_self
      have hle : g.seq ≤ q := hq ▸ (hh.page.seq_le hmem).2
      rw [jumpInit, jumpHead_cons rfl (.refl _) hh hhead, ← hhead]
      refine ⟨onLog_moveTo hmem, hle, ?_, ⟨le_rfl, Nat.le_succ _⟩, fun _ _ => ?_⟩
      all_goals rw [hhead]
      · exact hle.trans (Nat.le_succ q)
      · exact Iff.rfl
  | mostRecent =>
    rw [jumpInit, htail, startingPoint, List.map_append, List.map_singleton, List.getLast?_concat]
    exact hat
  | awaitNew =>
    rw [jumpInit, htail, startingPoint, List.map_append, List.map_singleton, List.getLast?_concat]
    exact h.aim_moveTo hlast

/-! ### Synchronous readers -/

namespace ReaderSyncZc

variable {r : ReaderSyncZc}

/-- The reader is to read the packets from `b` on. -/
def Aims (r : ReaderSyncZc) (C : List Frame) (q b : ℕ) : Prop :=
  Aim C q b (target r.behind r.transport) r.transport

/-- The reader at a frame. -/
def movedTo (r : ReaderSyncZc) (f : Frame) : ReaderSyncZc := { r with transport := r.transport.moveTo f }

theorem stepped_eq {f : Frame} (hiter : r.opts.iter = .next)
    (hf : stepNext m r.transport = .ok (r.transport.moveTo f)) : r.stepped m = r.movedTo f := by
  rw [stepped, advance.eq_def, hiter, movedTo]
  simp only [hf, moved]

/-- Whether a reader has to step. If it has not read anything, there is a packet to
step to. -/
theorem shouldStep_eq (h : Ready m n C [] q) (ha : r.Aims C q b) (hne : C ≠ []) :
    (r.shouldStep m = true ∧ Aim C q b (r.transport.seq + 1) r.transport ∧
      (r.behind = false → since C b ≠ none)) ∨
    r.shouldStep m = false ∧ ∃ f, since C b = some f ∧ r = r.movedTo f := by
  unfold Aims target at ha
  cases hb : r.behind with
  | true =>
    rw [hb, if_pos rfl] at ha
    exact .inl ⟨by rw [shouldStep, hb, Bool.true_or], ha, nofun⟩
  | false =>
    rw [hb, if_neg Bool.false_ne_true] at ha
    rcases h.iterValid_eq ha hne with ⟨hv, f, hf, hat⟩ | ⟨hv, hall⟩
    · refine .inr ⟨by rw [shouldStep, hb, hv]; rfl, f, ?_, by rw [movedTo, ← hat]⟩
      rw [since_congr ha.agree, hat]
      exact h.page.1.page.since_eq hf
    · obtain ⟨f, hf⟩ := List.exists_mem_of_ne_nil C hne
      refine .inl ⟨by rw [shouldStep, hb, hv]; rfl, ha.step hall, fun _ hnone => ?_⟩
      exact absurd (((ha.step hall).agree f hf).mpr (hall f hf)) (not_le.mpr (since_eq_none.mp hnone f hf))

/-- **A read that does not block** gives the frame that is to be read, if it is there. -/
theorem readAlign_eq (h : Ready m n C [] q) (ha : r.Aims C q b) (hiter : r.opts.iter = .next) :
    (r.readAlign m = .error .again ∧ since C b = none) ∨
    ∃ f, r.readAlign m = .ok (r.movedTo f) ∧ since C b = some f := by
  rw [readAlign, h.empty_eq]
  cases C with
  | nil => exact .inl ⟨rfl, rfl⟩
  | cons g rest =>
    simp only [List.isEmpty_cons, Bool.false_eq_true, if_false]
    rcases shouldStep_eq h ha (List.cons_ne_nil _ _) with ⟨hs, hstep, hsome⟩ | ⟨hs, f, hf, hat⟩
    · rcases h.step_eq hstep with ⟨hn, hnone⟩ | ⟨f, hn, hf, hto⟩
      · cases hb : r.behind with
        | true => exact .inl ⟨by rw [hn]; rfl, hnone⟩
        | false => exact absurd hnone (hsome hb)
      · refine .inr ⟨f, ?_, hf⟩
        rw [hn, hs, stepped_eq hiter hto]
        simp
    · refine .inr ⟨f, ?_, hf⟩
      have hb : r.behind = false := by
        rw [shouldStep, Bool.or_eq_false_iff] at hs
        exact hs.1
      rw [hb, hs, ← hat]
      rfl

end ReaderSyncZc

/-! ### Threaded readers -/

namespace ReaderZc

variable {r : ReaderZc}

/-- The reader is to read the packets from `b` on, and has read none. -/
structure Starts (r : ReaderZc) (C : List Frame) (q b : ℕ) : Prop where
  aim : Aim C q b (target (r.opts.init = .awaitNew) r.transport) r.transport
  empty : r.startedEmpty = true → r.transport.seq = 0

/-- The reader at a frame. -/
def movedTo (r : ReaderZc) (f : Frame) : ReaderZc := { r with transport := r.transport.moveTo f }

theorem initLocked_eval (opts : ReaderOptions) (h : Ready ((lock t.arena.mode).exec m) n C [] q) :
    (initLocked opts t).eval m =
      ⟨jumpInit ((lock t.arena.mode).exec m) t opts.init, opts, C.isEmpty⟩ := by
  have hempty := h.empty_eq
  simp only [initLocked, eval_bind, eval_read, exec_read, hempty, eval_pure]
  cases C with
  | nil => rw [jumpInit_of_empty opts.init hempty]; rfl
  | cons f fs => rfl

theorem handleNext_eq {f : Frame} (hiter : r.opts.iter = .next)
    (hf : stepNext m r.transport = .ok (r.transport.moveTo f)) : r.handleNext m = r.movedTo f := by
  rw [handleNext, advance.eq_def, hiter, movedTo]
  simp only [hf, moved]

/-- The first packet is handled if it is to be read. -/
theorem handleFirst_eq (h : Ready m n C [] q) (ha : r.Starts C q b) (hne : C ≠ []) :
    (r.handleFirst m = (r, false) ∧ Aim C q b (r.transport.seq + 1) r.transport) ∨
    ∃ f, r.handleFirst m = (r.movedTo f, true) ∧ since C b = some f := by
  cases hreset : r.reset m with
  | true =>
    have hall : ∀ f ∈ C, r.transport.seq < f.seq := by
      rcases h.iterValid_eq ha.aim hne with ⟨hv, f, hf, hat⟩ | ⟨-, hall⟩
      · rw [reset, hv, Bool.not_true, Bool.or_false] at hreset
        intro g hg
        rw [ha.empty hreset]
        exact (h.page.1.page.pos hne).trans (h.page.1.page.seq_le hg).1
      · exact hall
    cases C with
    | nil => exact absurd rfl hne
    | cons g rest =>
      refine .inr ⟨g, ?_, since_cons_of_le ?_⟩
      · rw [handleFirst, hreset, if_pos rfl, jumpHead_cons rfl (.refl _) h.page.1 rfl]
        rfl
      · exact ((ha.aim.step hall).agree g List.mem_cons_self).mpr (hall g List.mem_cons_self)
  | false =>
    rw [reset, Bool.or_eq_false_iff, Bool.not_eq_false'] at hreset
    have haim := ha.aim
    rcases h.iterValid_eq haim hne with ⟨hv, f, hf, hat⟩ | ⟨hv, -⟩
    · have hsame : r.movedTo f = r := by rw [movedTo, ← hat]
      have hr : r.reset m = false := by rw [reset, hreset.1, hv]; rfl
      rw [handleFirst, hr, if_neg Bool.false_ne_true]
      cases hinit : r.opts.init with
      | awaitNew =>
        rw [hinit] at haim
        exact .inl ⟨rfl, haim⟩
      | oldest | mostRecent =>
        rw [hinit] at haim
        refine .inr ⟨f, by rw [hsame]; rfl, ?_⟩
        rw [since_congr haim.agree]
        simp only [target, reduceCtorEq, decide_false, Bool.false_eq_true, if_false]
        rw [hat]
        exact h.page.1.page.since_eq hf
    · rw [hv] at hreset
      exact absurd hreset.2 Bool.false_ne_true

end ReaderZc

/-! ### What is delivered -/

/-- The sequence number and the data of the packet at the pointer. -/
def packetAt (m : Mem) (t : Transport) : Option (ℕ × List UInt8) :=
  match frame m t with
  | .ok off => some (frameSeq m off, frameData m off)
  | .error _ => none

theorem packetAt_moveTo (h : Ready m n C [] q) {f : Frame} (hf : f ∈ C) :
    packetAt m (t.moveTo f) = some f.entry := by
  have hin := h.stored (List.mem_append_left [] hf)
  rw [packetAt, frame_moveTo rfl (.refl _) h.page.1 hf]
  simp only [hin.seq, frameData, hin.size, hin.data, Frame.entry]

end AlephZero
