import AlephZero.Machine.FifoLog
import AlephZero.Transport.Session

/-!
# The transport is a log with FIFO loss

What the transport is for: an append-only log that loses its oldest entries when
it runs out of space (`FifoLog`). The log a page describes is the list of the
sequence numbers and the data of its frames, and a write is an allocation, the
payload stored to the frame, and a commit.

## What is proved

* `append_ready` — what a write does to the frames.
* `append_step`, `clear_step` — a write and a clear are steps of the log.
* **`append_refines`** — in any state that calls can reach, a write appends its
  payload under the next sequence number, behind what an eviction has left, and
  any run of writes and clears is a run of the log, during which no store changes
  a frame that survives the run.
-/

namespace AlephZero

open ByteMem StoreProg Prog IntervalRing

namespace Transport

variable {mode : ArenaMode} {m t : Mem} {n q : ℕ} {s w : TransportState} {fs C X : List Frame}
  {f : Frame} {payload : List UInt8}

/-! ### The log of a page -/

/-- What a frame is in the log. -/
def Frame.entry (f : Frame) : ℕ × List UInt8 := (f.seq, f.data)

theorem PageOf.seqHigh_eq (h : PageOf s fs) : ∃ low, 1 ≤ low ∧ low + fs.length = s.seqHigh + 1 ∧
    fs.map Frame.seq = List.range' low fs.length := by
  rcases h.high with hh | ⟨rfl, -, hhigh⟩
  · refine ⟨s.seqLow, ?_, hh, h.seqs⟩
    by_cases hnil : fs = []
    · subst hnil
      simp only [List.length_nil] at hh
      omega
    · exact h.pos hnil
  · exact ⟨1, le_rfl, by simp [hhigh], rfl⟩

/-- The log that a page describes. -/
def PageOf.log (h : PageOf s fs) : FifoLog (List UInt8) where
  entries := fs.map Frame.entry
  last := s.seqHigh
  numbered := by
    obtain ⟨low, h1, hlen, hn⟩ := h.seqHigh_eq
    refine ⟨low, h1, by simpa using hlen, ?_⟩
    rw [List.map_map, List.length_map]
    exact hn

/-- The working page describes the log `l`. -/
def Represents (m : Mem) (l : FifoLog (List UInt8)) : Prop :=
  logOf m (workingState m) = l.entries ∧ (workingState m).seqHigh = l.last

theorem Ready.represents (h : Ready m n C X q) : ∃ l, Represents m l ∧
    l.entries = (C ++ X).map Frame.entry ∧ l.last = q + X.length := by
  obtain ⟨-, i, c, w, hv, -, -, hw, hq, -⟩ := h
  refine ⟨hw.page.log, ⟨?_, ?_⟩, rfl, hq⟩ <;> rw [hv.workingState_eq]
  · exact logOf_eq hw
  · rfl

theorem Ready.framesOf_eq (h : Ready m n C X q) : framesOf m (workingState m) = C ++ X := by
  obtain ⟨-, i, c, w, hv, -, -, hw, -⟩ := h
  rw [hv.workingState_eq]
  exact Transport.framesOf_eq hw

theorem Ready.log_eq (h : Ready m n C [] q) : logOf m (workingState m) = C.map Frame.entry := by
  rw [logOf, h.framesOf_eq, List.append_nil]
  rfl

theorem Ready.seqHigh_eq (h : Ready m n C X q) : (workingState m).seqHigh = q + X.length := by
  obtain ⟨-, i, c, w, hv, -, -, -, hq, -⟩ := h
  rw [hv.workingState_eq, hq]

theorem Ready.seqHigh_lt (h : Ready m n C X q) : q + X.length + 1 < 2 ^ 64 := by
  obtain ⟨-, i, c, w, -, -, -, hw, hq, -⟩ := h
  rw [← hq]
  exact hw.page.fits

theorem Ready.stored (h : Ready m n C X q) (hf : f ∈ C ++ X) : f.In m := by
  obtain ⟨-, i, c, w, -, -, -, hw, -⟩ := h
  exact hw.linked.stored f hf

theorem Ready.layout (h : Ready m n C X q) : Layout n (C ++ X) := by
  obtain ⟨-, i, c, w, -, -, -, hw, -⟩ := h
  exact hw.layout

theorem Ready.arenaSize_eq (h : Ready m n C X q) : arenaSize m = n := by
  obtain ⟨-, i, c, w, hv, -⟩ := h
  exact hv.size

/-- The frame allocated is stored. -/
theorem Allocated.stored {size : ℕ} (h : Allocated m t n C X q size f) : f.In t := by
  rcases h.ready with ⟨-, ht⟩ | ⟨-, ht⟩
  · exact ht.stored (by simp)
  · exact ht.stored (by simp)

/-! ### Writes -/

/-- A write: an allocation, the payload stored to the frame, and a commit. The value
is that of `a0_transport_alloc`. -/
def append (mode : ArenaMode) (payload : List UInt8) : Prog Mem (Option (Except Err ℕ)) := do
  let r ← alloc mode payload.length
  match r with
  | some (.ok off) => do
    memcpy (off + 40) payload
    commit
    pure r
  | _ => pure r

/-- The payload is stored to the newest frame. -/
theorem fill_ready (h : Ready m n C (X ++ [f]) q) (hlen : payload.length = f.data.length) :
    (memcpy (f.off + 40) payload).wpc (fun t => ∃ g : Frame, Ready t n C (X ++ [g]) q)
      (fun _ t => Ready t n C (X ++ [{ f with data := payload }]) q) m := by
  have step : ∀ t : Mem, Mem.SameOutside (f.off + 40) payload.length m t →
      Ready t n C (X ++ [f.reread t]) q := fun t ht => h.sameOutside (hlen ▸ ht)
  refine wpc_mono memcpy_wpc (fun t ht => ⟨_, step t ht⟩) fun _ t ht => ?_
  have := step t ht.1
  rwa [Frame.reread, ← hlen, ht.2] at this

/-- The new frame stands behind those kept, whether or not the eviction has committed
them. -/
theorem Allocated.ready_append {size : ℕ} (h : Allocated m t n C X q size f) :
    ∃ C' X' q', Ready t n C' (X' ++ [f]) q' ∧ C' ++ X' = kept n size (C ++ X) ∧
      q' + X'.length = q + X.length := by
  rcases h.ready with ⟨hk, ht⟩ | ⟨-, ht⟩
  · exact ⟨C, X, q, ht, (kept_eq_self hk).symm, rfl⟩
  · exact ⟨_, [], _, ht, List.append_nil _, rfl⟩

/-- The frames kept survive each store of a write. -/
theorem append_ready (hmode : mode ≠ .readonly) (h : Ready m n C X q)
    (hq : q + X.length + 2 < 2 ^ 64) (hlen : payload.length < 2 ^ 63) :
    (append mode payload).wpc
      (fun t => 184 + payload.length ≤ n ∧ ∀ g ∈ kept n payload.length (C ++ X), g.In t)
      (fun r t => n < 184 + payload.length ∧ r = some (.error .frameLarge) ∧ t = m ∨
        184 + payload.length ≤ n ∧ ∃ f : Frame, r = some (.ok f.off) ∧
          f.seq = q + X.length + 1 ∧ f.data = payload ∧
          Ready t n (kept n payload.length (C ++ X) ++ [f]) [] (q + X.length + 1)) m := by
  rw [append, wpc_bind]
  refine wpc_mono (alloc_ready hmode h hq hlen) (fun t ht => ⟨ht.fits, ht.stored⟩) fun r t ht => ?_
  rcases ht with ⟨hlt, rfl, rfl⟩ | ⟨hle, f, rfl, ha⟩
  · exact wpc_pure.mpr (.inl ⟨hlt, rfl, rfl⟩)
  obtain ⟨C', X', q', ht, hkept, hq'⟩ := ha.ready_append
  have hstored : ∀ {u : Mem} {g : Frame}, Ready u n C' (X' ++ [g]) q' →
      ∀ g ∈ kept n payload.length (C ++ X), g.In u := fun hu g hg =>
    hu.stored (by rw [← List.append_assoc, hkept]; exact List.mem_append_left _ hg)
  simp only [wpc_bind, wpc_pure]
  refine wpc_mono (fill_ready ht ha.length.symm) ?_ fun _ u hu => ?_
  · rintro u ⟨g, hu⟩
    exact ⟨hle, hstored hu⟩
  have hcommit := commit_ready hu
  rw [← List.append_assoc, hkept, List.length_append, List.length_singleton, ← add_assoc, hq']
    at hcommit
  refine wpc_mono hcommit ?_ fun _ v hv => .inr ⟨hle, { f with data := payload }, rfl, ha.seq, rfl, hv⟩
  rintro v ⟨⟨_, c, _, hc, _⟩, _⟩
  exact ⟨hle, fun g hg => hc.linked.stored g (List.mem_append_left _ hg)⟩

/-! ### Runs of writes and clears -/

/-- Writes and clears, one after another. -/
def runOps (mode : ArenaMode) : List (FifoLog.Op (List UInt8)) → Prog Mem Unit
  | [] => pure ()
  | .write payload :: ops => do
    let _ ← append mode payload
    runOps mode ops
  | .clear :: ops => do
    clear
    runOps mode ops

/-- The arena is large enough for the payload that is to be written. -/
def accepted (n : ℕ) : FifoLog.Op (List UInt8) → Bool
  | .write payload => 184 + payload.length ≤ n
  | .clear => true

/-- Payloads are objects. -/
def Small : FifoLog.Op (List UInt8) → Prop
  | .write payload => payload.length < 2 ^ 63
  | .clear => True

theorem Ready.seq_le (h : Ready m n C X q) (hf : f ∈ C ++ X) : f.seq ≤ q + X.length := by
  obtain ⟨l, -, he, hl⟩ := h.represents
  have : f.entry ∈ l.entries := he ▸ List.mem_map_of_mem hf
  exact hl ▸ (FifoLog.le_last this).2

/-- A run of writes and clears is a run of the log, and the frames left of those
that were there survive each of its stores. -/
theorem runOps_ready {ops : List (FifoLog.Op (List UInt8))} (hmode : mode ≠ .readonly)
    (h : Ready m n C X q) (hsmall : ∀ op ∈ ops, Small op)
    (hq : q + X.length + ops.length + 1 < 2 ^ 64) {l : FifoLog (List UInt8)}
    (hl : l.entries = (C ++ X).map Frame.entry) (hlast : l.last = q + X.length) :
    ∃ C' X' q' l', Ready ((runOps mode ops).exec m) n C' X' q' ∧
      l'.entries = (C' ++ X').map Frame.entry ∧ l'.last = q' + X'.length ∧
      FifoLog.Run l (ops.filter (accepted n)) l' ∧
      ∀ f ∈ C' ++ X', f.seq ≤ q + X.length →
        f ∈ C ++ X ∧ ∀ t, (runOps mode ops).Crash m t → f.In t := by
  induction ops generalizing m C X q l with
  | nil =>
    refine ⟨C, X, q, l, h, hl, hlast, .nil l, fun f hf _ => ⟨hf, fun t ht => ?_⟩⟩
    rcases ht with rfl | ht
    · exact h.stored hf
    · simp [runOps, Pure.pure, Prog.pure] at ht
  | cons op ops ih =>
    rw [List.length_cons] at hq
    have hrest : ∀ op ∈ ops, Small op := fun o ho => hsmall o (by simp [ho])
    cases op with
    | write payload =>
      have hwrite := append_ready hmode h (by omega) (hsmall (.write payload) (by simp))
      rcases post_of_wpc hwrite with ⟨hlt, -, hsame⟩ | ⟨hle, f, -, hseq, hdata, hready⟩
      · -- the payload is refused: nothing is stored
        obtain ⟨C', X', q', l', h', hl', hlast', hrun, hsurv⟩ := ih h hrest (by omega) hl hlast
        refine ⟨C', X', q', l', ?_, hl', hlast', ?_, fun f hf hle => ?_⟩
        · rw [runOps, exec_bind, hsame]; exact h'
        · rwa [List.filter_cons_of_neg (by simpa [accepted] using hlt)]
        · obtain ⟨hmem, hin⟩ := hsurv f hf hle
          refine ⟨hmem, fun t ht => ?_⟩
          rcases crash_bind ht with (rfl | ht) | ht
          · exact h.stored hmem
          · exact absurd (hwrite.1 t ht).1 (by omega)
          · rw [hsame] at ht; exact hin t ht
      · have hl₁ : ((l.drop (evictions n payload.length (C ++ X))).append payload).entries =
            (kept n payload.length (C ++ X) ++ [f] ++ []).map Frame.entry := by
          simp [hl, hlast, Frame.entry, hseq, hdata, kept, List.map_drop]
        obtain ⟨C', X', q', l', h', hl', hlast', hrun, hsurv⟩ :=
          ih hready hrest (by simp; omega) hl₁ (by simp [hlast])
        refine ⟨C', X', q', l', h', hl', hlast', ?_, fun g hg hle => ?_⟩
        · rw [List.filter_cons_of_pos (by simpa [accepted] using hle)]
          exact .cons (.write l _ payload) hrun
        · obtain ⟨hmem, hin⟩ := hsurv g hg (by simp; omega)
          have hgk : g ∈ kept n payload.length (C ++ X) := by
            rcases List.mem_append.mp (List.append_nil _ ▸ hmem) with hmem | hmem
            · exact hmem
            · rw [List.mem_singleton.mp hmem] at hle; omega
          refine ⟨List.drop_subset _ _ hgk, fun t ht => ?_⟩
          rcases crash_bind ht with (rfl | ht) | ht
          · exact h.stored (List.drop_subset _ _ hgk)
          · exact (hwrite.1 t ht).2 g hgk
          · exact hin t ht
    | clear =>
      have hclear := post_of_wpc (clear_ready h)
      obtain ⟨C', X', q', l', h', hl', hlast', hrun, hsurv⟩ :=
        ih hclear hrest (by simp; omega) (l := l.clear) rfl (by simp [hlast])
      refine ⟨C', X', q', l', h', hl', hlast', .cons (.clear l) hrun, fun g hg hle => ?_⟩
      exact absurd (hsurv g hg (by simpa using hle)).1 (by simp)

/-- **The transport is an append-only log with FIFO loss**: in any state that calls
can reach, a write that is not refused drops some of the oldest entries and appends
its payload under the next sequence number, and commits; and in any run of writes
and clears the sequence numbers increase by one for each write, whatever is left of
an old entry is what it was, and no store changes the frame it is in. -/
theorem append_refines (hmode : mode ≠ .readonly) (hm : Reachable mode m) :
    (∀ payload off, payload.length < 2 ^ 63 → (workingState m).seqHigh + 2 < 2 ^ 64 →
      (append mode payload).eval m = some (.ok off) → ∀ t, t = (append mode payload).exec m →
        (∃ k, logOf t (workingState t) = (logOf m (workingState m)).drop k ++
          [((workingState m).seqHigh + 1, payload)]) ∧
        (workingState t).seqHigh = (workingState m).seqHigh + 1 ∧
        committedState t = workingState t) ∧
    ∀ ops, (∀ op ∈ ops, Small op) → (workingState m).seqHigh + ops.length + 1 < 2 ^ 64 →
      ∀ t, t = (runOps mode ops).exec m → ∃ l l', Represents m l ∧ Represents t l' ∧
        FifoLog.Run l (ops.filter (accepted (arenaSize m))) l' ∧
        l'.last = l.last + (FifoLog.writes (ops.filter (accepted (arenaSize m)))).length ∧
        l'.entries <:+ l.entries ++
          FifoLog.number l.last (FifoLog.writes (ops.filter (accepted (arenaSize m)))) ∧
        ∀ f ∈ framesOf t (workingState t), f.seq ≤ (workingState m).seqHigh →
          f ∈ framesOf m (workingState m) ∧ ∀ u, (runOps mode ops).Crash m u → f.In u := by
  obtain ⟨n, C, X, q, h⟩ := hm.ready hmode
  obtain ⟨l, hl, he, hlast⟩ := h.represents
  constructor
  · rintro payload off hlen hq hok t rfl
    rw [h.seqHigh_eq] at hq ⊢
    rcases post_of_wpc (append_ready hmode h (by omega) hlen) with
      ⟨-, hr, -⟩ | ⟨-, f, -, hseq, hdata, ht⟩
    · rw [hok] at hr; simp at hr
    · obtain ⟨l', hl', he', hlast'⟩ := ht.represents
      refine ⟨⟨evictions n payload.length (C ++ X), ?_⟩, by rw [hl'.2, hlast']; rfl,
        ht.same.symm⟩
      rw [hl'.1, he', hl.1, he]
      simp [kept, Frame.entry, hseq, hdata, List.map_drop]
  · rintro ops hsmall hq t rfl
    rw [h.seqHigh_eq] at hq ⊢
    obtain ⟨C', X', q', l', h', he', hlast', hrun, hsurv⟩ :=
      runOps_ready hmode h hsmall hq he hlast
    obtain ⟨l'', hl'', he'', hlast''⟩ := h'.represents
    obtain rfl : l'' = l' := FifoLog.ext (he''.trans he'.symm) (hlast''.trans hlast'.symm)
    rw [h.framesOf_eq, h'.framesOf_eq, h.arenaSize_eq]
    exact ⟨l, l'', hl, hl'', hrun, hrun.last_eq, hrun.suffix, hsurv⟩

/-- The first write to an arena of 1000 bytes. -/
theorem append_refines_first :
    ∃ l', Represents ((runOps .exclusive [.write [1, 2]]).exec (reached .exclusive [.init 1000])) l' ∧
      l'.last = 1 ∧ l'.entries <:+ [(1, [1, 2])] := by
  have h := reached_init .exclusive (n := 1000) (by norm_num)
  obtain ⟨l, l', hl, hl', -, hlast, hsuffix, -⟩ :=
    (append_refines (show ArenaMode.exclusive ≠ .readonly by decide) ⟨1000, [], by decide, by decide, rfl⟩).2
      [.write [1, 2]] (by simp [Small]) (by rw [h.seqHigh_eq]; simp) _ rfl
  have hentries : l.entries = [] := by rw [← hl.1, logOf, h.framesOf_eq]; rfl
  have hzero : l.last = 0 := by rw [← hl.2, h.seqHigh_eq]; rfl
  rw [h.arenaSize_eq, hzero] at hlast hsuffix
  rw [hentries] at hsuffix
  exact ⟨l', hl', hlast, hsuffix⟩

end Transport

end AlephZero
