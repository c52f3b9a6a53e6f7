import AlephZero.Transport.HasNext

/-!
# Pointers across an unlock

A connection keeps a sequence number and an offset while it does not have the lock, and
others allocate, commit and clear. What it does with them once it has the lock again is
decided by the sequence number, and the frame is where the offset says.

## The model

Connections share an arena. One of them has the lock, and moves its pointer, allocates,
commits and clears, in any order, until it lets go of the lock, with or without a frame
that it has not committed.

## What is proved

* **`stepNext_resumes`** — from a pointer at a committed frame, a step leads to the oldest
  frame with a greater sequence number, whatever has happened in between.
* `Call.Post.onLog`, `Inv.step` — how the log changes below a pointer.
* **`valid_points`** — a pointer that is valid is at a frame of the log, if no connection
  lets go of the lock with its pointer at a frame that is not committed.
* `not_valid_points` — such a frame is lost, and its sequence number goes to another frame,
  at another offset.
-/

namespace AlephZero

open ByteMem StoreProg Prog

namespace Transport

variable {m t : Mem} {n n' q q' : ℕ} {w : TransportState} {C C' X X' fs : List Frame} {f : Frame} {slot slot' : Slot}
  {p p' : Transport}

/-! ### Going on -/

/-- A step leads to the oldest frame with a greater sequence number, if there is one. -/
structure Resumes (m : Mem) (p : Transport) : Prop where
  steps : hasNext m p = true → ∃ f ∈ framesOf m (workingState m), p.seq < f.seq ∧
    (∀ g ∈ framesOf m (workingState m), p.seq < g.seq → f.seq ≤ g.seq) ∧ stepNext m p = .ok (p.moveTo f)
  ends : hasNext m p = false → stepNext m p = .error .range

theorem Ready.resumes (h : Ready m n C [] q) (hp : OnLog C p) : Resumes m p := by
  obtain ⟨hh, -⟩ := h.page
  have hstep := stepNext_eq rfl (.refl _) hh hp
  constructor
  · intro hnext
    obtain ⟨g, hg, hlt⟩ := (hasNext_iff rfl (.refl _) hh).mp hnext
    rw [h.framesOf_eq, List.append_nil]
    cases hf : after C p.seq with
    | none => exact absurd hlt (by simpa using List.find?_eq_none.mp hf g hg)
    | some f =>
      rw [hf] at hstep
      obtain ⟨hmem, hle, hleast⟩ := hh.page.since_eq_some (show since C (p.seq + 1) = some f from hf)
      exact ⟨f, hmem, hle, hleast, hstep⟩
  · intro hno
    rw [stepNext, hno]
    rfl

/-- A frame that was committed had a number up to the last one. -/
theorem Ready.positioned (h : Ready m n C X q) (hp : Positioned m p) : OnLog C p ∧ p.seq ≤ q := by
  obtain ⟨f, hf, hseq, hoff⟩ := hp
  rw [h.committed_eq] at hf
  obtain ⟨-, c, -, hh, rfl⟩ := h.logged
  refine ⟨.inr ⟨f, hf, hseq, hoff⟩, ?_⟩
  rw [← hseq]
  exact (hh.page.seq_le hf).2

/-- **`a0_transport_step_next` resumes** after anything that others have done since the
pointer was at a committed frame. -/
theorem stepNext_resumes (p : Transport) (σ₀ σ₁ : Turn) (h₀ : Held σ₀.mem σ₀.slot) (hheld : σ₀.held = true)
    (hpos : Positioned σ₀.mem p) (hrun : (Turn.turns (fun _ => True) (fun _ => True) σ₀).Reach σ₁)
    (hfree : σ₁.held = false) : Resumes ((lock .shared).exec σ₁.mem) p := by
  obtain ⟨n, C, X, q, hr, hs⟩ := h₀.ready
  obtain ⟨hon, hle⟩ := hr.positioned hpos
  have hinv : Turn.Inv C q σ₁ := (Turn.turns_inv (.of_ready hheld hr hs)).reach hrun
  obtain ⟨n₁, C₁, q₁, hlog, hlater⟩ := hinv.2 hfree
  have hlock₀ : Ready ((lock .shared).exec σ₀.mem) n C [] q := post_of_wpc (lock_ready hr.logged)
  have hlock₁ : Ready ((lock .shared).exec σ₁.mem) n₁ C₁ [] q₁ := post_of_wpc (lock_ready hlog)
  exact hlock₁.resumes (hon.later hle hlock₀ hlock₁ hlater)

/-- The lock is given up and taken again. -/
theorem stepNext_resumes_relock : ∃ m, Resumes ((lock .shared).exec ((unlock .shared).exec m)) first := by
  obtain ⟨m, f₁, f₂, hm, hr, hseq, hoff, -⟩ := exists_two_frames
  refine ⟨m, ?_⟩
  exact stepNext_resumes first ⟨m, none, true⟩ ⟨(unlock .shared).exec m, none, false⟩ hm rfl
    (first_positioned hr hseq hoff) (.step (.init rfl) (.unlock rfl trivial)) rfl

/-! ### The log below a pointer -/

/-- A pointer at a frame of the list, or older than all of them, is that of another list too. -/
def Carries (fs : List Frame) (q : ℕ) (fs' : List Frame) (q' : ℕ) : Prop :=
  ∀ p, OnLog fs p → p.seq ≤ q → OnLog fs' p ∧ p.seq ≤ q'

theorem Later.carries (hl : Later C q C' q') (h : ∃ m, Ready m n C [] q) (h' : ∃ m, Ready m n' C' [] q') :
    Carries C q C' q' := by
  obtain ⟨m, h⟩ := h
  obtain ⟨m', h'⟩ := h'
  intro p hp hle
  exact ⟨hp.later hle h h' hl, hle.trans hl.1⟩

theorem Logged.exists_ready (h : Logged m n C q) : ∃ m, Ready m n C [] q := ⟨_, post_of_wpc (lock_ready h)⟩

/-- The working log can be committed. -/
theorem Ready.exists_ready (h : Ready m n C X q) : ∃ m, Ready m n (C ++ X) [] (q + X.length) :=
  ⟨_, post_of_wpc (commit_ready h)⟩

theorem carries_refl (fs : List Frame) (q : ℕ) : Carries fs q fs q := fun _ hp hle => ⟨hp, hle⟩

/-- The newest frame has been filled in. -/
theorem carries_reread : Carries (C ++ (X ++ [f])) q (C ++ (X ++ [f.reread t])) q := by
  intro p hp hle
  refine ⟨?_, hle⟩
  rcases hp with hnew | ⟨g, hg, hseq, hoff⟩
  · left
    intro g hg
    simp only [List.mem_append, List.mem_singleton] at hg
    rcases hg with hg | hg | rfl
    · exact hnew g (by simp [hg])
    · exact hnew g (by simp [hg])
    · exact hnew f (by simp)
  · right
    simp only [List.mem_append, List.mem_singleton] at hg
    rcases hg with hg | hg | rfl
    · exact ⟨g, by simp [hg], hseq, hoff⟩
    · exact ⟨g, by simp [hg], hseq, hoff⟩
    · exact ⟨g.reread t, by simp, hseq, hoff⟩

/-- A frame is allocated behind those that are kept. -/
theorem Allocated.carries {size : ℕ} (h : Ready m n C X q) (ha : Allocated m t n C X q size f) :
    ∃ C' X' q', Ready t n C' X' q' ∧ Outstanding (some (f.off, size)) X' ∧
      Carries C q C' q' ∧ Carries (C ++ X) (q + X.length) (C' ++ X') (q' + X'.length) := by
  have hout : ∀ X, Outstanding (some (f.off, size)) (X ++ [f]) := by
    intro X
    rw [← ha.length]
    exact outstanding_snoc f
  have hlater : ∀ fs : List Frame, (∀ g ∈ fs, g ∈ C ++ X) →
      Later (C ++ X) (q + X.length) (fs ++ [f]) (q + X.length + 1) := by
    intro fs hfs
    refine ⟨Nat.le_succ _, ?_⟩
    intro g hg hle
    rcases List.mem_append.mp hg with hg | hg
    · exact hfs g hg
    · rw [List.mem_singleton.mp hg, ha.seq] at hle
      omega
  rcases ha.ready with ⟨-, ht⟩ | ⟨-, ht⟩
  · have hl := hlater (C ++ X) fun g hg => hg
    have hall := ht.exists_ready
    rw [List.length_append, List.length_singleton, ← Nat.add_assoc, ← List.append_assoc] at hall
    refine ⟨C, X ++ [f], q, ht, hout X, carries_refl C q, ?_⟩
    rw [List.length_append, List.length_singleton, ← Nat.add_assoc, ← List.append_assoc]
    exact hl.carries h.exists_ready hall
  · have hl := hlater (kept n size (C ++ X)) (List.drop_subset _ _)
    refine ⟨_, [f], _, ht, hout [], ?_, ?_⟩
    · have hsub := h.later (List.drop_subset _ _ : kept n size (C ++ X) ⊆ C ++ X) (Nat.le_add_right q X.length)
      exact hsub.carries h.logged.exists_ready ht.logged.exists_ready
    · exact hl.carries h.exists_ready ht.exists_ready

/-- What a call of the holder does to the log below a pointer. -/
theorem Call.Post.carries {c : Call} (h : Ready m n C X q) (hs : Outstanding slot X) (hin : Turn.Inside c)
    (hp : c.Post .shared m n C X q slot slot' t) :
    ∃ n' C' X' q', Ready t n' C' X' q' ∧ Outstanding slot' X' ∧
      Carries C q C' q' ∧ Carries (C ++ X) (q + X.length) (C' ++ X') (q' + X'.length) := by
  cases c with
  | init | lock | unlock => exact absurd hin id
  | alloc size =>
    rcases hp with ⟨-, rfl, rfl⟩ | ⟨-, f, rfl, ha⟩
    · exact ⟨n, C, X, q, h, hs, carries_refl C q, carries_refl (C ++ X) _⟩
    · exact ⟨n, ha.carries h⟩
  | put j b =>
    obtain ⟨rfl, rfl | ⟨X', f, rfl, ht⟩⟩ := hp
    · exact ⟨n, C, X, q, h, hs, carries_refl C q, carries_refl (C ++ X) _⟩
    · refine ⟨n, C, _, q, ht, hs.reread, carries_refl C q, ?_⟩
      simpa only [List.length_append, List.length_singleton] using carries_reread
  | commit =>
    obtain ⟨rfl, ht⟩ := hp
    have hl : Later C q (C ++ X) (q + X.length) := h.later (List.Subset.refl _) (Nat.le_add_right q _)
    refine ⟨n, _, [], _, ht, outstanding_none, hl.carries h.logged.exists_ready ⟨_, ht⟩, ?_⟩
    rw [List.append_nil]
    exact carries_refl (C ++ X) _
  | clear =>
    obtain ⟨rfl, ht⟩ := hp
    have hl : Later C q [] (q + X.length) := h.later (List.nil_subset _) (Nat.le_add_right q _)
    have hall : Later (C ++ X) (q + X.length) [] (q + X.length) :=
      ⟨le_rfl, fun f hf _ => absurd hf List.not_mem_nil⟩
    exact ⟨n, [], [], _, ht, outstanding_none, hl.carries h.logged.exists_ready ⟨_, ht⟩,
      hall.carries h.exists_ready ⟨_, ht⟩⟩
  | resize size =>
    obtain ⟨rfl, rfl | ht⟩ := hp
    · exact ⟨n, C, X, q, h, hs, carries_refl C q, carries_refl (C ++ X) _⟩
    · exact ⟨size, C, X, q, ht, hs, carries_refl C q, carries_refl (C ++ X) _⟩

/-! ### Connections -/

/-- A call that moves the pointer. -/
inductive Move where
  /-- `a0_transport_jump_head`. -/
  | jumpHead
  /-- `a0_transport_jump_tail`. -/
  | jumpTail
  /-- `a0_transport_step_next`. -/
  | stepNext
  /-- `a0_transport_step_prev`. -/
  | stepPrev
  deriving DecidableEq

/-- Where it moves the pointer. -/
def Move.run (m : Mem) (p : Transport) : Move → Except Err Transport
  | .jumpHead => Transport.jumpHead m p
  | .jumpTail => Transport.jumpTail m p
  | .stepNext => Transport.stepNext m p
  | .stepPrev => Transport.stepPrev m p

/-- Connections that share an arena. -/
structure Sharing (ι : Type) where
  /-- The arena. -/
  mem : Mem
  /-- The connection that has the lock. -/
  owner : Option ι
  /-- The frame that it has allocated and not committed. -/
  slot : Slot
  /-- The pointers. -/
  conn : ι → Transport
  /-- The pointer has been set by a jump or a step. -/
  moved : ι → Bool

namespace Sharing

variable {ι : Type} {gives : Mem → Transport → Prop} {σ σ' : Sharing ι} {i : ι}

/-- Connections that have been opened, and of which none has the lock. -/
structure Opened (σ : Sharing ι) : Prop where
  mem : ∃ m slot, Held m slot ∧ σ.mem = (Transport.unlock .shared).exec m
  owner : σ.owner = none
  seq : ∀ i, (σ.conn i).seq = 0
  moved : ∀ i, σ.moved i = false

variable [DecidableEq ι]

/-- A step, if a connection lets go of the lock only with a memory and a pointer for which
`gives` holds. Sequence numbers do not run out. -/
inductive Step (gives : Mem → Transport → Prop) (σ : Sharing ι) : Sharing ι → Prop
  /-- `a0_transport_lock`. -/
  | lock (i : ι) : σ.owner = none →
    Step gives σ { σ with mem := (Transport.lock .shared).exec σ.mem, owner := some i, slot := none }
  /-- The holder moves its pointer. -/
  | move (i : ι) (mv : Move) (p : Transport) : σ.owner = some i → mv.run σ.mem (σ.conn i) = .ok p →
    Step gives σ { σ with conn := Function.update σ.conn i p, moved := Function.update σ.moved i true }
  /-- A call of the holder. -/
  | call (i : ι) (c : Call) : σ.owner = some i → Turn.Inside c → c.Fits →
    (workingState σ.mem).seqHigh + c.isAlloc.toNat + 1 < 2 ^ 64 →
    Step gives σ { σ with mem := (c.prog .shared σ.slot).exec σ.mem, slot := (c.prog .shared σ.slot).eval σ.mem }
  /-- `a0_transport_unlock`. -/
  | unlock (i : ι) : σ.owner = some i → gives σ.mem (σ.conn i) →
    Step gives σ { σ with mem := (Transport.unlock .shared).exec σ.mem, owner := none, slot := none }

/-- Their runs. -/
def system (gives : Mem → Transport → Prop) : TransitionSystem (Sharing ι) where
  init := Opened
  step := Step gives

end Sharing

/-- A pointer that is valid is at a frame of the log. -/
def Points (m : Mem) (p : Transport) : Prop :=
  iterValid m p = true →
    ∃ f ∈ framesOf m (workingState m), frame m p = .ok f.off ∧ frameSeq m f.off = p.seq

/-- The pointer of the holder points at its own frame, once it has been set. -/
def Sharing.Correct {ι : Type} (σ : Sharing ι) : Prop :=
  ∀ i, σ.owner = some i → σ.moved i = true → Points σ.mem (σ.conn i)

/-- The pointer is not at a frame behind those that are committed. -/
def AtCommitted (m : Mem) (p : Transport) : Prop := p.seq ≤ (committedState m).seqHigh

/-! ### Pointers that are set -/

theorem Holds.points (hw : workingState m = w) (h : Holds m n w fs) (hp : OnLog fs p) (hpos : 1 ≤ p.seq) :
    Points m p := by
  intro hvalid
  rw [iterValid, hw, Bool.and_eq_true, decide_eq_true_iff, decide_eq_true_iff] at hvalid
  obtain ⟨hlow, hhigh⟩ := hvalid
  rw [hw, Transport.framesOf_eq h]
  rcases hp with hnew | ⟨f, hf, hseq, hoff⟩
  · exfalso
    cases fs with
    | nil =>
      rcases h.page.high with hh | hh
      · rw [List.length_nil] at hh
        omega
      · omega
    | cons f fs =>
      have hf := hnew f List.mem_cons_self
      rw [h.page.seqLow_eq] at hf
      omega
  · refine ⟨f, hf, ?_, ?_⟩
    · rw [frame, hw, if_neg (by omega), hoff]
    · rw [← hseq]
      exact (h.linked.stored f hf).seq

/-- A pointer is moved to a frame of the working log. -/
theorem Move.run_ok {mv : Move} (hw : workingState m = w) (h : Holds m n w fs) (hp : OnLog fs p)
    (hrun : mv.run m p = .ok p') : ∃ f ∈ fs, p' = p.moveTo f := by
  cases mv with
  | jumpHead =>
    have hrun : Transport.jumpHead m p = .ok p' := hrun
    cases fs with
    | nil =>
      rw [jumpHead_nil hw (.refl w) h rfl] at hrun
      cases hrun
    | cons f fs =>
      rw [jumpHead_cons hw (.refl w) h rfl] at hrun
      exact ⟨f, List.mem_cons_self, (Except.ok.inj hrun).symm⟩
  | jumpTail =>
    have hrun : Transport.jumpTail m p = .ok p' := hrun
    rcases List.eq_nil_or_concat fs with rfl | ⟨pre, f, rfl⟩
    · rw [Transport.jumpTail, if_pos ((empty_iff hw (.refl w) h).mpr rfl)] at hrun
      cases hrun
    · rw [List.concat_eq_append] at h ⊢
      rw [jumpTail_eq hw h] at hrun
      exact ⟨f, List.mem_append_right pre List.mem_cons_self, (Except.ok.inj hrun).symm⟩
  | stepNext =>
    have hrun : Transport.stepNext m p = .ok p' := hrun
    rw [stepNext_eq hw (.refl w) h hp] at hrun
    cases hf : after fs p.seq with
    | none =>
      rw [hf] at hrun
      cases hrun
    | some f =>
      rw [hf] at hrun
      exact ⟨f, List.mem_of_find?_eq_some hf, (Except.ok.inj hrun).symm⟩
  | stepPrev =>
    have hrun : Transport.stepPrev m p = .ok p' := hrun
    rw [stepPrev_eq hw (.refl w) h hp] at hrun
    cases hf : before fs p.seq with
    | none =>
      rw [hf] at hrun
      cases hrun
    | some f =>
      rw [hf] at hrun
      have hmem : f ∈ fs.takeWhile fun g => g.seq < p.seq := List.mem_of_getLast? hf
      exact ⟨f, List.takeWhile_subset _ hmem, (Except.ok.inj hrun).symm⟩

/-! ### Every run -/

namespace Sharing

variable {ι : Type} {gives : Mem → Transport → Prop} {σ σ' : Sharing ι} {i : ι}

/-- A pointer at a frame of the list, or older than all of them, and at none that has not been
allocated yet. -/
def Sound (fs : List Frame) (q : ℕ) (p : Transport) : Prop := OnLog fs p ∧ p.seq ≤ q

theorem Sound.carries {fs' : List Frame} (h : Sound fs q p) (hc : Carries fs q fs' q') : Sound fs' q' p := hc p h.1 h.2

/-- The pages are in order. The pointers are sound on the committed log, but that of the
holder on the working log. -/
structure Inv (σ : Sharing ι) : Prop where
  free : σ.owner = none → ∃ n C q, Logged σ.mem n C q ∧ ∀ i, Sound C q (σ.conn i)
  held : ∀ i, σ.owner = some i → ∃ n C X q, Ready σ.mem n C X q ∧ Outstanding σ.slot X ∧
    (∀ j, j ≠ i → Sound C q (σ.conn j)) ∧ Sound (C ++ X) (q + X.length) (σ.conn i)
  moved : ∀ i, σ.moved i = true → 1 ≤ (σ.conn i).seq

theorem Inv.of_opened (h : σ.Opened) : σ.Inv := by
  constructor
  · intro _
    obtain ⟨m, slot, hm, he⟩ := h.mem
    obtain ⟨n, C, X, q, hr, -⟩ := hm.ready
    have hlock : Ready ((Transport.lock .shared).exec m) n C [] q := post_of_wpc (lock_ready hr.logged)
    rw [← unlock_eq_lock, ← he] at hlock
    refine ⟨n, C, q, hlock.logged, ?_⟩
    intro i
    rw [Sound, h.seq i]
    refine ⟨.inl ?_, Nat.zero_le q⟩
    intro f hf
    rw [h.seq i]
    have hh := hlock.page.1.page
    exact (hh.pos (List.ne_nil_of_mem hf)).trans (hh.seq_le hf).1
  · intro i hi
    rw [h.owner] at hi
    cases hi
  · intro i hi
    rw [h.moved i] at hi
    cases hi

theorem Inv.lock (h : σ.Inv) (hfree : σ.owner = none) :
    Inv { σ with mem := (Transport.lock .shared).exec σ.mem, owner := some i, slot := none } := by
  obtain ⟨n, C, q, hl, hall⟩ := h.free hfree
  have hr : Ready ((Transport.lock .shared).exec σ.mem) n C [] q := post_of_wpc (lock_ready hl)
  refine ⟨fun hno => (Option.some_ne_none _ hno).elim, ?_, h.moved⟩
  intro j _
  refine ⟨n, C, [], q, hr, outstanding_none, fun k _ => hall k, ?_⟩
  rw [List.append_nil]
  exact hall j

theorem Inv.move [DecidableEq ι] {mv : Move} (h : σ.Inv) (hi : σ.owner = some i)
    (hrun : mv.run σ.mem (σ.conn i) = .ok p) :
    Inv { σ with conn := Function.update σ.conn i p, moved := Function.update σ.moved i true } := by
  obtain ⟨n, C, X, q, hr, hs, hothers, hown⟩ := h.held i hi
  obtain ⟨f, hf, hp⟩ : ∃ f ∈ C ++ X, p = (σ.conn i).moveTo f := by
    obtain ⟨-, k, c, w, hv, -, -, hw, -⟩ := hr
    exact mv.run_ok hv.workingState_eq hw hown.1 hrun
  have hpos : 1 ≤ f.seq := by
    obtain ⟨-, k, c, w, hv, -, -, hw, -⟩ := hr
    exact (hw.page.pos (List.ne_nil_of_mem hf)).trans (hw.page.seq_le hf).1
  refine ⟨?_, ?_, ?_⟩
  · intro hno
    rw [show σ.owner = none from hno] at hi
    cases hi
  · intro j hj
    obtain rfl : i = j := Option.some.inj (hi.symm.trans hj)
    refine ⟨n, C, X, q, hr, hs, ?_, ?_⟩
    · intro k hk
      simp only [Function.update_of_ne hk]
      exact hothers k hk
    · simp only [Function.update_self]
      rw [hp]
      exact ⟨onLog_moveTo hf, hr.seq_le hf⟩
  · intro j hj
    by_cases hji : j = i
    · subst hji
      simp only [Function.update_self, hp]
      exact hpos
    · simp only [Function.update_of_ne hji] at hj ⊢
      exact h.moved j hj

theorem Inv.call {c : Call} (h : σ.Inv) (hi : σ.owner = some i) (hin : Turn.Inside c) (hfits : c.Fits)
    (hseq : (workingState σ.mem).seqHigh + c.isAlloc.toNat + 1 < 2 ^ 64) :
    Inv { σ with mem := (c.prog .shared σ.slot).exec σ.mem, slot := (c.prog .shared σ.slot).eval σ.mem } := by
  obtain ⟨n, C, X, q, hr, hs, hothers, hown⟩ := h.held i hi
  rw [hr.seqHigh_eq] at hseq
  have hp : c.Post .shared σ.mem n C X q σ.slot _ _ := post_of_wpc (c.prog_wpc (by decide) hr hs hfits hseq)
  obtain ⟨n', C', X', q', hr', hs', hc, hall⟩ := hp.carries hr hs hin
  refine ⟨?_, ?_, h.moved⟩
  · intro hno
    rw [show σ.owner = none from hno] at hi
    cases hi
  · intro j hj
    obtain rfl : i = j := Option.some.inj (hi.symm.trans hj)
    exact ⟨n', C', X', q', hr', hs', fun k hk => (hothers k hk).carries hc, hown.carries hall⟩

/-- A pointer that is not ahead of the committed log is sound on it. -/
theorem Sound.committed (h : Ready m n C X q) (hp : Sound (C ++ X) (q + X.length) p) (hle : p.seq ≤ q) :
    Sound C q p := by
  refine ⟨?_, hle⟩
  rcases hp.1 with hnew | ⟨f, hf, hseq, hoff⟩
  · exact .inl fun f hf => hnew f (List.mem_append_left X hf)
  · have hold : Later C q (C ++ X) q := h.later (List.Subset.refl _) le_rfl
    exact .inr ⟨f, hold.2 f hf (hseq ▸ hle), hseq, hoff⟩

theorem Inv.unlock (h : σ.Inv) (hi : σ.owner = some i) (hat : AtCommitted σ.mem (σ.conn i)) :
    Inv { σ with mem := (Transport.unlock .shared).exec σ.mem, owner := none, slot := none } := by
  obtain ⟨n, C, X, q, hr, -, hothers, hown⟩ := h.held i hi
  have hlock : Ready ((Transport.lock .shared).exec σ.mem) n C [] q := post_of_wpc (lock_ready hr.logged)
  have hq : (committedState σ.mem).seqHigh = q := by
    obtain ⟨-, c, hc, -, hq⟩ := hr.logged
    rw [hc.state, hq]
  refine ⟨?_, fun j hj => (Option.some_ne_none j hj.symm).elim, h.moved⟩
  intro _
  rw [unlock_eq_lock]
  refine ⟨n, C, q, hlock.logged, ?_⟩
  intro j
  by_cases hji : j = i
  · subst hji
    exact hown.committed hr (hq ▸ hat)
  · exact hothers j hji

/-- Each step keeps the pointers sound. -/
theorem inv [DecidableEq ι] (hgives : ∀ m p, gives m p → AtCommitted m p) :
    (system (ι := ι) gives).IsInvariant Inv where
  init _ h := .of_opened h
  step := by
    intro σ σ' h hst
    cases hst with
    | lock i hfree => exact h.lock hfree
    | move i mv p hi hrun => exact h.move hi hrun
    | call i c hi hin hfits hseq => exact h.call hi hin hfits hseq
    | unlock i hi hg => exact h.unlock hi (hgives _ _ hg)

theorem Inv.correct (h : σ.Inv) : σ.Correct := by
  intro i hi hmoved
  obtain ⟨n, C, X, q, hr, -, -, hown⟩ := h.held i hi
  obtain ⟨-, k, c, w, hv, -, -, hw, -⟩ := hr
  exact hw.points hv.workingState_eq hown.1 (h.moved i hmoved)

end Sharing

/-- **A valid pointer is at its own frame**, in every run in which no connection lets go of
the lock with its pointer at a frame that is not committed. -/
theorem valid_points {ι : Type} [DecidableEq ι] (σ : Sharing ι)
    (h : (Sharing.system (ι := ι) AtCommitted).Reach σ) : σ.Correct :=
  ((Sharing.inv fun _ _ hg => hg).reach h).correct

/-! ### A frame that is not committed -/

/-- An allocation that fits. -/
theorem Ready.call_alloc {size : ℕ} (h : Ready m n C [] q) (hfit : 184 + size ≤ n) (hq : q + 2 < 2 ^ 64) :
    ∃ f : Frame, Outstanding ((Call.prog .shared (.alloc size) none).eval m) [f] ∧
      Allocated m ((Call.prog .shared (.alloc size) none).exec m) n C [] q size f := by
  have hn : n < 2 ^ 62 := h.layout.size
  have hfits : (Call.alloc size).Fits := show size < 2 ^ 62 by omega
  have hp : (Call.alloc size).Post .shared m n C [] q none _ _ :=
    post_of_wpc (Call.prog_wpc (by decide) h outstanding_none hfits hq)
  rcases hp with ⟨hlt, -⟩ | ⟨-, f, hslot, ha⟩
  · omega
  · refine ⟨f, ?_, ha⟩
    rw [hslot, ← ha.length]
    exact outstanding_snoc (X := []) f

/-- There are sequence numbers left for a call. -/
theorem Ready.room (h : Ready m n C X q) {c : Call} (hq : q + X.length + 2 < 2 ^ 64) :
    (workingState m).seqHigh + c.isAlloc.toNat + 1 < 2 ^ 64 := by
  have := c.isAlloc.toNat_le
  rw [h.seqHigh_eq]
  omega

/-- An arena of 1000 bytes with a committed frame of 8 bytes. -/
theorem exists_one_frame : ∃ m f, Held m none ∧ Ready m 1000 [f] [] 1 ∧ f.off = 144 ∧ f.data.length = 8 := by
  have hn : 1000 < 2 ^ 62 := by norm_num
  obtain ⟨m, f, hm, hr, -, hoff, hlen⟩ :=
    Held.write (.opened .shared hn) (reached_init .shared hn) (show 184 + 8 ≤ 1000 by norm_num) (by norm_num)
  exact ⟨m, f, hm, hr, hoff, hlen⟩

/-- A connection that has just been opened. -/
def fresh : Transport := ⟨⟨1000, .shared⟩, 0, 0, 0, false⟩

/-- Two connections. -/
def two (m : Mem) : Sharing Bool := ⟨(unlock .shared).exec m, none, none, fun _ => fresh, fun _ => false⟩

theorem two_opened (h : Held m none) : (two m).Opened := ⟨⟨m, none, h, rfl⟩, rfl, fun _ => rfl, fun _ => rfl⟩

theorem Ready.relock (h : Ready m n C X q) :
    Ready ((lock .shared).exec ((unlock .shared).exec m)) n C [] q := by
  rw [unlock_eq_lock]
  have hlock : Ready ((lock .shared).exec m) n C [] q := post_of_wpc (lock_ready h.logged)
  exact post_of_wpc (lock_ready hlock.logged)

/-- One of two connections jumps to the frame that there is. -/
theorem valid_points_jump : ∃ m p, p.off = 144 ∧ Points m p := by
  obtain ⟨m, f, hm, hr, hoff, -⟩ := exists_one_frame
  have hlock := hr.relock
  have hjump : Move.jumpHead.run ((lock .shared).exec ((unlock .shared).exec m)) fresh = .ok (fresh.moveTo f) :=
    jumpHead_cons rfl (.refl _) hlock.page.1 rfl
  have hreach : (Sharing.system AtCommitted).Reach _ :=
    .step (.step (.init (two_opened hm)) (.lock true rfl)) (.move true .jumpHead (fresh.moveTo f) rfl hjump)
  refine ⟨_, _, ?_, valid_points _ hreach true rfl (by simp)⟩
  simpa [moveTo] using hoff

/-- Behind the frame there is room for another one of 8 bytes. -/
theorem Ready.alloc_small (h : Ready m 1000 [f] [] 1) (hoff : f.off = 144) (hlen : f.data.length = 8) :
    ∃ g : Frame, Ready ((Call.prog .shared (.alloc 8) none).exec m) 1000 [f] [g] 1 ∧ g.seq = 2 ∧ g.off = 192 := by
  obtain ⟨g, -, ha⟩ := h.call_alloc (show 184 + 8 ≤ 1000 by norm_num) (by norm_num)
  have hslot : slotOff 1000 (40 + 8) [f] = 192 := by
    simp [slotOff, Frame.stop, hoff, hlen, maxAlign, wrap]
  have hnone : evictions 1000 8 [f] = 0 := by
    simp [evictions, hslot, evictCount, Evicts, Frame.stop, hoff, hlen]
  rcases ha.ready with ⟨-, ht⟩ | ⟨hpos, -⟩
  · exact ⟨g, ht, ha.seq, ha.off.trans hslot⟩
  · rw [List.append_nil, hnone] at hpos
    cases hpos

/-- There is none for 800 bytes, and the frame is evicted. -/
theorem Ready.alloc_large (h : Ready m 1000 [f] [] 1) (hoff : f.off = 144) (hlen : f.data.length = 8) :
    ∃ g : Frame, Outstanding ((Call.prog .shared (.alloc 800) none).eval m) [g] ∧
      Ready ((Call.prog .shared (.alloc 800) none).exec m) 1000 [] [g] 1 ∧ g.off = 144 := by
  obtain ⟨g, hout, ha⟩ := h.call_alloc (show 184 + 800 ≤ 1000 by norm_num) (by norm_num)
  have hslot : slotOff 1000 (40 + 800) [f] = 144 := by
    simp [slotOff, Frame.stop, hoff, hlen, maxAlign, wrap]
  have hone : evictions 1000 800 [f] = 1 := by
    simp [evictions, hslot, evictCount, Evicts, Frame.stop, hoff, hlen]
  rcases ha.ready with ⟨hz, -⟩ | ⟨-, ht⟩
  · rw [List.append_nil, hone] at hz
    cases hz
  · have hkept : kept 1000 800 ([f] ++ []) = [] := by
      rw [List.append_nil, kept, hone]
      rfl
    rw [hkept] at ht
    exact ⟨g, hout, ht, ha.off.trans hslot⟩

section Sessions

variable {σ : Sharing Bool} {i : Bool} (h : (Sharing.system fun _ _ => True).Reach σ)
include h

theorem reach_lock (i : Bool) (hfree : σ.owner = none) : ∃ σ' : Sharing Bool,
    (Sharing.system fun _ _ => True).Reach σ' ∧ σ'.mem = (lock .shared).exec σ.mem ∧ σ'.owner = some i ∧
      σ'.slot = none ∧ σ'.conn = σ.conn ∧ σ'.moved = σ.moved :=
  ⟨_, .step h (.lock i hfree), rfl, rfl, rfl, rfl, rfl⟩

theorem reach_call {c : Call} (hi : σ.owner = some i) (hin : Turn.Inside c) (hfits : c.Fits)
    (hr : Ready σ.mem n C X q) (hq : q + X.length + 2 < 2 ^ 64) : ∃ σ' : Sharing Bool,
    (Sharing.system fun _ _ => True).Reach σ' ∧ σ'.mem = (c.prog .shared σ.slot).exec σ.mem ∧ σ'.owner = some i ∧
      σ'.slot = (c.prog .shared σ.slot).eval σ.mem ∧ σ'.conn = σ.conn ∧ σ'.moved = σ.moved :=
  ⟨_, .step h (.call i c hi hin hfits (hr.room hq)), rfl, hi, rfl, rfl, rfl⟩

theorem reach_move {mv : Move} (hi : σ.owner = some i) (hrun : mv.run σ.mem (σ.conn i) = .ok p) : ∃ σ' : Sharing Bool,
    (Sharing.system fun _ _ => True).Reach σ' ∧ σ'.mem = σ.mem ∧ σ'.owner = some i ∧ σ'.conn i = p ∧
      σ'.moved i = true :=
  ⟨_, .step h (.move i mv p hi hrun), rfl, hi, Function.update_self i p σ.conn, Function.update_self i true σ.moved⟩

theorem reach_unlock (hi : σ.owner = some i) (hr : Ready σ.mem n C X q) : ∃ σ' : Sharing Bool,
    (Sharing.system fun _ _ => True).Reach σ' ∧ Ready ((lock .shared).exec σ'.mem) n C [] q ∧ σ'.owner = none ∧
      σ'.conn = σ.conn ∧ σ'.moved = σ.moved :=
  ⟨_, .step h (.unlock i hi trivial), hr.relock, rfl, rfl, rfl⟩

variable (hfree : σ.owner = none) (hr : Ready ((lock .shared).exec σ.mem) 1000 [f] [] 1) (hoff : f.off = 144)
  (hlen : f.data.length = 8)
include hfree hr hoff hlen

/-- A connection allocates a frame, jumps to it and lets go of the lock. -/
theorem exists_lost : ∃ σ' : Sharing Bool, (Sharing.system fun _ _ => True).Reach σ' ∧
    Ready ((lock .shared).exec σ'.mem) 1000 [f] [] 1 ∧ σ'.owner = none ∧ σ'.moved true = true ∧
      (σ'.conn true).seq = 2 ∧ (σ'.conn true).off = 192 := by
  obtain ⟨σ₁, h₁, hmem₁, hown₁, hslot₁, -⟩ := reach_lock h true hfree
  rw [← hmem₁] at hr
  obtain ⟨g, hg, hgseq, hgoff⟩ := hr.alloc_small hoff hlen
  have hfits : (Call.alloc 8).Fits := show 8 < 2 ^ 62 by norm_num
  obtain ⟨σ₂, h₂, hmem₂, hown₂, -⟩ := reach_call h₁ hown₁ (show Turn.Inside (.alloc 8) from trivial) hfits hr
    (by norm_num)
  rw [← hslot₁, ← hmem₂] at hg
  have hjump : Move.jumpTail.run σ₂.mem (σ₂.conn true) = .ok ((σ₂.conn true).moveTo g) := by
    obtain ⟨-, i, c, w, hv, -, -, hw, -⟩ := hg
    exact jumpTail_eq hv.workingState_eq hw
  obtain ⟨σ₃, h₃, hmem₃, hown₃, hconn₃, hmoved₃⟩ := reach_move h₂ hown₂ hjump
  rw [← hmem₃] at hg
  obtain ⟨σ₄, h₄, hr₄, hown₄, hconn₄, hmoved₄⟩ := reach_unlock h₃ hown₃ hg
  refine ⟨σ₄, h₄, hr₄, hown₄, ?_, ?_, ?_⟩
  · rw [hmoved₄, hmoved₃]
  · rw [hconn₄, hconn₃]
    exact hgseq
  · rw [hconn₄, hconn₃]
    exact hgoff

/-- The other one allocates so many bytes that the buffer starts over, and commits that. -/
theorem exists_replaced : ∃ (σ' : Sharing Bool) (x : Frame), (Sharing.system fun _ _ => True).Reach σ' ∧
    Ready ((lock .shared).exec σ'.mem) 1000 [x] [] 2 ∧ x.off = 144 ∧ σ'.owner = none ∧ σ'.conn = σ.conn ∧
      σ'.moved = σ.moved := by
  obtain ⟨σ₁, h₁, hmem₁, hown₁, hslot₁, hconn₁, hmoved₁⟩ := reach_lock h false hfree
  rw [← hmem₁] at hr
  obtain ⟨x, hout, hx, hxoff⟩ := hr.alloc_large hoff hlen
  have hfits : (Call.alloc 800).Fits := show 800 < 2 ^ 62 by norm_num
  obtain ⟨σ₂, h₂, hmem₂, hown₂, hslot₂, hconn₂, hmoved₂⟩ :=
    reach_call h₁ hown₁ (show Turn.Inside (.alloc 800) from trivial) hfits hr (by norm_num)
  rw [← hslot₁, ← hmem₂] at hx
  rw [← hslot₁, ← hslot₂] at hout
  obtain ⟨σ₃, h₃, hmem₃, hown₃, -, hconn₃, hmoved₃⟩ :=
    reach_call h₂ hown₂ (show Turn.Inside .commit from trivial) trivial hx (by norm_num)
  have hp : Call.commit.Post .shared σ₂.mem 1000 [] [x] 1 σ₂.slot _ _ :=
    post_of_wpc (Call.prog_wpc (by decide) hx hout (show Call.commit.Fits from trivial) (by norm_num [Call.isAlloc]))
  have hr₃ := hp.2
  rw [← hmem₃] at hr₃
  obtain ⟨σ₄, h₄, hr₄, hown₄, hconn₄, hmoved₄⟩ := reach_unlock h₃ hown₃ hr₃
  refine ⟨σ₄, x, h₄, hr₄, hxoff, hown₄, ?_, ?_⟩
  · rw [hconn₄, hconn₃, hconn₂, hconn₁]
  · rw [hmoved₄, hmoved₃, hmoved₂, hmoved₁]

end Sessions

/-- There is a frame of 8 bytes. A connection allocates another, jumps to it, and lets go of
the lock. For the 800 bytes of the other connection the buffer starts over, and the frame
that is committed has the sequence number of the one that was not. -/
theorem not_valid_points : ¬ ∀ σ : Sharing Bool, (Sharing.system fun _ _ => True).Reach σ → σ.Correct := by
  intro h
  obtain ⟨m, f, hm, hr, hoff, hlen⟩ := exists_one_frame
  have hopen : (Sharing.system fun _ _ => True).Reach (two m) := .init (two_opened hm)
  obtain ⟨σ₁, h₁, hr₁, hown₁, hmoved₁, hseq₁, hoff₁⟩ := exists_lost hopen rfl hr.relock hoff hlen
  obtain ⟨σ₂, x, h₂, hr₂, hxoff, hown₂, hconn₂, hmoved₂⟩ := exists_replaced h₁ hown₁ hr₁ hoff hlen
  obtain ⟨σ₃, h₃, hmem₃, hown₃, -, hconn₃, hmoved₃⟩ := reach_lock h₂ true hown₂
  rw [← hmem₃] at hr₂
  rw [← hconn₂, ← hconn₃] at hseq₁ hoff₁
  rw [← hmoved₂, ← hmoved₃] at hmoved₁
  -- the pointer is valid, and at the frame that has been lost
  have hlow := hr₂.seqLow_eq (by simp)
  have hhigh := hr₂.seqHigh_eq
  simp only [List.length_append, List.length_singleton, List.length_nil] at hlow hhigh
  have hvalid : iterValid σ₃.mem (σ₃.conn true) = true := by
    rw [iterValid, hseq₁, Bool.and_eq_true, decide_eq_true_iff, decide_eq_true_iff]
    omega
  obtain ⟨y, hy, hframe, -⟩ := h σ₃ h₃ true hown₃ hmoved₁ hvalid
  rw [hr₂.framesOf_eq, List.append_nil, List.mem_singleton] at hy
  subst hy
  rw [frame, hseq₁, if_neg (by omega), hoff₁, hxoff] at hframe
  cases Except.ok.inj hframe

end Transport

end AlephZero
