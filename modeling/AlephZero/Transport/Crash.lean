import AlephZero.Machine.Runs
import AlephZero.Transport.Refinement

/-!
# Deaths

Sessions in SHARED mode in which the holder of the lock may die, before any store
or after any of them. The next holder begins with `a0_transport_lock`, and may die
in that as well. What it finds is the log before the interrupted write, short of
some of its oldest frames, or, if the death came late enough in a commit or a
clear, the log after it.

## The model

A `World` is the memory, the frame the holder has allocated and not committed, if
any, whether the holder is dead, and two lists that nothing depends on: the log
before the write in progress, and every entry that has ever been committed, in
order. The holder keeps to the rule of `transport.h`: at most one allocation for
each commit.

## What is proved

* `World.Step.inv`, `World.isInvariant` — the invariant `World.Inv`, for one step and
  for a run.
* **`crash_consistent`** — what the next `a0_transport_lock` finds.
-/

namespace AlephZero

open ByteMem StoreProg Prog

namespace Transport

variable {m t : Mem} {n q size : ℕ} {fs C X : List Frame} {f : Frame}

/-- The log that the next holder of the lock finds. -/
def exposed (m : Mem) : List (ℕ × List UInt8) :=
  logOf ((lock .shared).exec m) (workingState ((lock .shared).exec m))

theorem Logged.exposed_eq (h : Logged m n C q) : exposed m = C.map Frame.entry := by
  have hr : Ready ((lock .shared).exec m) n C [] q := post_of_wpc (lock_ready h)
  obtain ⟨l, hl, he, -⟩ := hr.represents
  rw [exposed, hl.1, he, List.append_nil]

/-- The entry that a commit adds to the log, if there is one. -/
def pending (m : Mem) (slot : Slot) : List (ℕ × List UInt8) :=
  slot.toList.map fun p => (frameSeq m p.1, m.loadBytes (p.1 + 40) p.2)

/-- The call belongs to a write: what it leaves is not to be seen before a commit. -/
def Call.inWrite : Call → Bool
  | .alloc _ | .put _ _ | .resize _ => true
  | _ => false

/-- A memory, what its holder remembers, and what it has been through. -/
structure World where
  /-- The arena. -/
  mem : Mem
  /-- The frame that is allocated and not committed. -/
  slot : Slot
  /-- The holder of the lock has died. -/
  dead : Bool
  /-- The log before the write in progress, or the log if there is none. -/
  before : List (ℕ × List UInt8)
  /-- Every entry ever committed. -/
  history : List (ℕ × List UInt8)

namespace World

/-- After a death the next call is `a0_transport_lock`; there is at most one
allocation for each commit; and sequence numbers do not run out. -/
structure Allows (σ : World) (call : Call) : Prop where
  lock : σ.dead = true → call = .lock
  once : call.isAlloc = true → σ.slot = none ∧ (workingState σ.mem).seqHigh + 2 < 2 ^ 64
  fits : call.Fits

/-- A call runs to its end. -/
def call (σ : World) (c : Call) : World where
  mem := (c.prog .shared σ.slot).exec σ.mem
  slot := (c.prog .shared σ.slot).eval σ.mem
  dead := false
  before :=
    if c.inWrite then σ.before
    else logOf ((c.prog .shared σ.slot).exec σ.mem)
      (workingState ((c.prog .shared σ.slot).exec σ.mem))
  history := if c = .commit then σ.history ++ pending σ.mem σ.slot else σ.history

/-- The holder dies in a call and leaves the memory `t`. An entry is committed when
`committed_page_idx` flips. -/
def die (σ : World) (c : Call) (t : Mem) : World where
  mem := t
  slot := none
  dead := true
  before := exposed t
  history :=
    if c = .commit ∧ committedPageIdx t ≠ committedPageIdx σ.mem then
      σ.history ++ pending σ.mem σ.slot
    else σ.history

/-- A call, or a death in a call. -/
inductive Step (σ : World) : World → Prop where
  | call (c : Call) : σ.Allows c → Step σ (σ.call c)
  | die (c : Call) (t : Mem) : σ.Allows c → (c.prog .shared σ.slot).Crash σ.mem t →
    Step σ (σ.die c t)

/-- An arena that was all zero, just opened. -/
def opened (n : ℕ) : World := ⟨reached .shared [.init n], none, false, [], []⟩

/-- Any calls and deaths, from an arena that was all zero. -/
def runs : TransitionSystem World where
  init σ := ∃ n < 2 ^ 62, σ = opened n
  step := Step

theorem opened_mem (n : ℕ) : (opened n).mem = reached .shared [.init n] := by rw [opened]

theorem opened_ready {n : ℕ} (hn : n < 2 ^ 62) : Ready (opened n).mem n [] [] 0 := by
  rw [opened_mem]
  exact reached_init .shared hn

variable {σ σ' : World} {c : Call}

/-- The frames `C` are committed; they are what is left of the log before the write
in progress, and the newest entries of the history; and `X` is the frame allocated. -/
structure Inv (σ : World) (n : ℕ) (C X : List Frame) (q : ℕ) : Prop where
  logged : Logged σ.mem n C q
  ready : σ.dead = false → Ready σ.mem n C X q
  dead : σ.dead = true → X = []
  before : ∃ j, C.map Frame.entry = σ.before.drop j
  history : C.map Frame.entry <:+ σ.history
  slot : X = [] ∧ σ.slot = none ∨ ∃ f, X = [f] ∧ σ.slot = some (f.off, f.data.length)

theorem Inv.outstanding (h : σ.Inv n C X q) : Outstanding σ.slot X := by
  rcases h.slot with ⟨-, hs⟩ | ⟨f, rfl, hs⟩
  · rw [hs]; exact outstanding_none
  · rw [hs]; exact outstanding_snoc (X := []) f

theorem Inv.call_wpc (h : σ.Inv n C X q) (ha : σ.Allows c) :
    (c.prog .shared σ.slot).wpc (fun t => c.Mid σ.mem n C X q t)
      (fun slot t => c.Post .shared σ.mem n C X q σ.slot slot t) σ.mem := by
  cases hd : σ.dead with
  | true =>
    obtain rfl := ha.lock hd
    simp only [Call.prog, wpc_bind, wpc_pure]
    exact wpc_mono (lock_ready h.logged) (fun _ ht => ht) fun _ t ht => ⟨rfl, ht⟩
  | false =>
    have hr := h.ready hd
    refine Call.prog_wpc (by decide) hr h.outstanding ha.fits ?_
    cases hc : c.isAlloc with
    | true =>
      have := (ha.once hc).2
      rw [hr.seqHigh_eq] at this
      exact this
    | false =>
      have := hr.seqHigh_lt
      simp only [Bool.toNat_false]
      omega

/-- The entry a commit adds is that of the frame allocated. -/
theorem Inv.pending_eq (h : σ.Inv n C X q) (hd : σ.dead = false) :
    pending σ.mem σ.slot = X.map Frame.entry := by
  rcases h.slot with ⟨rfl, hs⟩ | ⟨f, rfl, hs⟩
  · rw [hs]; rfl
  · have hin := (h.ready hd).stored (f := f) (by simp)
    rw [hs]
    simp [pending, Frame.entry, hin.seq, hin.data]

/-- Right after a call that is not part of a write. -/
theorem Inv.settled {n' q' : ℕ} {C' : List Frame} (hr : Ready (σ.call c).mem n' C' [] q')
    (hslot : (σ.call c).slot = none) (hc : c.inWrite = false)
    (hh : C'.map Frame.entry <:+ (σ.call c).history) : (σ.call c).Inv n' C' [] q' := by
  refine ⟨hr.logged, fun _ => hr, fun _ => rfl, ⟨0, ?_⟩, hh, .inl ⟨rfl, hslot⟩⟩
  obtain ⟨l, hl, he, -⟩ := hr.represents
  have hb : (σ.call c).before = logOf (σ.call c).mem (workingState (σ.call c).mem) :=
    if_neg (by simp [hc])
  rw [hb, hl.1, he, List.append_nil, List.drop_zero]

theorem call_history (hc : c ≠ .commit) : (σ.call c).history = σ.history := if_neg hc

/-- Right after a call that is part of a write. -/
theorem Inv.writing {n' q' : ℕ} {C' X' : List Frame} (h : σ.Inv n C X q) (hc : c.inWrite = true)
    (hr : Ready (σ.call c).mem n' C' X' q') (hdrop : ∃ k, C' = C.drop k)
    (hslot : X' = [] ∧ (σ.call c).slot = none ∨
      ∃ f, X' = [f] ∧ (σ.call c).slot = some (f.off, f.data.length)) :
    (σ.call c).Inv n' C' X' q' := by
  obtain ⟨k, rfl⟩ := hdrop
  obtain ⟨j, hj⟩ := h.before
  have hb : (σ.call c).before = σ.before := if_pos hc
  refine ⟨hr.logged, fun _ => hr, nofun, ⟨j + k, ?_⟩, ?_, hslot⟩
  · rw [hb, List.map_drop, hj, List.drop_drop]
  · rw [call_history (by rintro rfl; simp [Call.inWrite] at hc), List.map_drop]
    exact (List.drop_suffix _ _).trans h.history

/-- A call keeps the invariant. -/
theorem Inv.call (h : σ.Inv n C X q) (ha : σ.Allows c) :
    ∃ n' C' X' q', (σ.call c).Inv n' C' X' q' := by
  have hp : c.Post .shared σ.mem n C X q σ.slot (σ.call c).slot (σ.call c).mem :=
    post_of_wpc (h.call_wpc ha)
  have halive : c ≠ .lock → σ.dead = false := fun hc => by
    by_contra hd
    exact hc (ha.lock (by simpa using hd))
  cases c with
  | init | lock | unlock =>
    exact ⟨n, C, [], q, Inv.settled hp.2 hp.1 rfl
      (by rw [call_history (by simp)]; exact h.history)⟩
  | alloc size =>
    rcases hp with ⟨-, hs, hm⟩ | ⟨-, f, hs, hal⟩
    · exact ⟨n, C, X, q, h.writing rfl (hm ▸ h.ready (halive (by simp))) ⟨0, rfl⟩ (hs ▸ h.slot)⟩
    · obtain rfl : X = [] := by
        rcases h.slot with hX | ⟨g, -, hg⟩
        · exact hX.1
        · rw [(ha.once rfl).1] at hg; exact absurd hg (by simp)
      have hslot : (σ.call (.alloc size)).slot = some (f.off, f.data.length) := by
        rw [hs, hal.length]
      rcases hal.ready with ⟨-, ht⟩ | ⟨-, ht⟩
      · exact ⟨n, C, [f], q, h.writing rfl ht ⟨0, rfl⟩ (.inr ⟨f, rfl, hslot⟩)⟩
      · rw [kept, List.append_nil] at ht
        exact ⟨n, _, [f], _, h.writing rfl ht ⟨_, rfl⟩ (.inr ⟨f, rfl, hslot⟩)⟩
  | put j b =>
    obtain ⟨hs, hm | ⟨X', f, rfl, ht⟩⟩ := hp
    · exact ⟨n, C, X, q, h.writing rfl (hm ▸ h.ready (halive (by simp))) ⟨0, rfl⟩ (hs ▸ h.slot)⟩
    · rcases h.slot with ⟨hX, -⟩ | ⟨g, hX, hg⟩
      · simp at hX
      · obtain ⟨rfl, hfg⟩ := List.append_inj' (show X' ++ [f] = [] ++ [g] from hX) rfl
        obtain rfl : f = g := by simpa using hfg
        exact ⟨n, C, _, q, h.writing rfl ht ⟨0, rfl⟩
          (.inr ⟨f.reread _, rfl, by rw [hs, hg]; simp [Frame.reread]⟩)⟩
  | commit =>
    refine ⟨n, C ++ X, [], _, Inv.settled hp.2 hp.1 rfl ?_⟩
    have hh : (σ.call .commit).history = σ.history ++ pending σ.mem σ.slot := by simp [World.call]
    rw [hh, h.pending_eq (halive (by simp)), List.map_append]
    exact List.suffix_append_self_iff.mpr h.history
  | clear =>
    exact ⟨n, [], [], _, Inv.settled hp.2 hp.1 rfl List.nil_suffix⟩
  | resize size =>
    obtain ⟨hs, hm | ht⟩ := hp
    · exact ⟨n, C, X, q, h.writing rfl (hm ▸ h.ready (halive (by simp))) ⟨0, rfl⟩ (hs ▸ h.slot)⟩
    · exact ⟨size, C, X, q, h.writing rfl ht ⟨0, rfl⟩ (hs ▸ h.slot)⟩

/-- What a death leaves for the next holder: the log before the write in progress,
short of some of its oldest entries, or the log after the commit or the clear. -/
theorem Inv.crash (h : σ.Inv n C X q) (ha : σ.Allows c)
    (ht : (c.prog .shared σ.slot).Crash σ.mem t) :
    ∃ n' C' q', Logged t n' C' q' ∧ C'.map Frame.entry <:+ (σ.die c t).history ∧
      ((∃ j, C'.map Frame.entry = σ.before.drop j) ∨ (c = .commit ∨ c = .clear) ∧
        C'.map Frame.entry = logOf (σ.call c).mem (workingState (σ.call c).mem)) := by
  obtain ⟨j, hj⟩ := h.before
  have hkeep : c ≠ .commit ∨ committedPageIdx t = committedPageIdx σ.mem →
      (σ.die c t).history = σ.history := fun hc => if_neg (by tauto)
  rcases ht with rfl | ht
  · exact ⟨n, C, q, h.logged, by rw [hkeep (.inr rfl)]; exact h.history, .inl ⟨j, hj⟩⟩
  have hmid : c.Mid σ.mem n C X q t := (h.call_wpc ha).1 t ht
  have hp : c.Post .shared σ.mem n C X q σ.slot (σ.call c).slot (σ.call c).mem :=
    post_of_wpc (h.call_wpc ha)
  cases c with
  | init | lock | unlock | put =>
    exact ⟨n, C, q, hmid, by rw [hkeep (.inl (by simp))]; exact h.history, .inl ⟨j, hj⟩⟩
  | resize size =>
    exact ⟨size, C, q, hmid, by rw [hkeep (.inl (by simp))]; exact h.history, .inl ⟨j, hj⟩⟩
  | alloc size =>
    obtain rfl : X = [] := by
      rcases h.slot with hX | ⟨g, -, hg⟩
      · exact hX.1
      · rw [(ha.once rfl).1] at hg; exact absurd hg (by simp)
    rw [hkeep (.inl (by simp))]
    rcases hmid.logged with hl | ⟨k, -, -, hl⟩
    · exact ⟨n, C, q, hl, h.history, .inl ⟨j, hj⟩⟩
    · rw [List.append_nil] at hl
      refine ⟨n, _, _, hl, ?_, .inl ⟨j + k, ?_⟩⟩
      · rw [List.map_drop]; exact (List.drop_suffix _ _).trans h.history
      · rw [List.map_drop, hj, List.drop_drop]
  | commit =>
    obtain ⟨hl, hflip⟩ := hmid
    have hd : σ.dead = false := by
      by_contra hd
      exact absurd (ha.lock (by simpa using hd)) (by simp)
    have hh : (σ.die .commit t).history = σ.history ++ pending σ.mem σ.slot :=
      if_pos ⟨rfl, by rw [hflip]; unfold lnot; split <;> omega⟩
    obtain ⟨l, hrep, he, -⟩ := hp.2.represents
    refine ⟨n, C ++ X, _, hl, ?_, .inr ⟨.inl rfl, ?_⟩⟩
    · rw [hh, h.pending_eq hd, List.map_append]
      exact List.suffix_append_self_iff.mpr h.history
    · rw [hrep.1, he, List.append_nil]
  | clear =>
    obtain ⟨l, hrep, he, -⟩ := hp.2.represents
    rcases hmid with hl | hl
    · exact ⟨n, C, q, hl, by rw [hkeep (.inl (by simp))]; exact h.history, .inl ⟨j, hj⟩⟩
    · exact ⟨n, [], _, hl, List.nil_suffix, .inr ⟨.inr rfl, by rw [hrep.1, he]; rfl⟩⟩

/-- A step keeps the invariant. -/
theorem Step.inv (hs : Step σ σ') (h : ∃ n C X q, σ.Inv n C X q) : ∃ n C X q, σ'.Inv n C X q := by
  obtain ⟨n, C, X, q, h⟩ := h
  cases hs with
  | call c ha => exact h.call ha
  | die c t ha ht =>
    obtain ⟨n', C', q', hl, hh, -⟩ := h.crash ha ht
    exact ⟨n', C', [], q', hl, nofun, fun _ => rfl, ⟨0, hl.exposed_eq.symm⟩, hh, .inl ⟨rfl, rfl⟩⟩

/-- So does any run. -/
theorem isInvariant : runs.IsInvariant fun σ => ∃ n C X q, σ.Inv n C X q where
  init := by
    rintro _ ⟨n, hn, rfl⟩
    have hr := opened_ready hn
    exact ⟨n, [], [], 0, hr.logged, fun _ => hr, fun _ => rfl, ⟨0, rfl⟩, List.nil_suffix,
      .inl ⟨rfl, rfl⟩⟩
  step _ _ h hs := hs.inv h

end World

end Transport

end AlephZero
