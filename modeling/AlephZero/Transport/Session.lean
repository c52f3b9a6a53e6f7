import AlephZero.Transport.Invariant

/-!
# Sessions

The calls a process makes on a transport it has opened, in a mode in which it may
write, and lists of them, in any order. Between two calls the memory is ready, and
both of its pages describe a well-formed log.

## What is proved

* `Call.prog_wpc` — what each call does, and what it has committed at each of its
  stores.
* `session_ready` — a session takes a ready memory to a ready one.
* **`session_wellFormed`** — after any calls in SHARED mode on an arena that was all
  zero, the working page and the committed page are well formed.
-/

namespace AlephZero

open ByteMem StoreProg Prog IntervalRing

namespace Transport

variable {mode : ArenaMode} {m t : Mem} {n q : ℕ} {s : TransportState} {fs C X : List Frame}

/-! ### Calls -/

/-- A call. -/
inductive Call where
  /-- `a0_transport_init`, of an arena whose buffer has this size. -/
  | init (size : ℕ)
  /-- `a0_transport_lock`. -/
  | lock
  /-- `a0_transport_unlock`. -/
  | unlock
  /-- `a0_transport_alloc`. -/
  | alloc (size : ℕ)
  /-- A store of one byte to the data of the frame allocated last. -/
  | put (j : ℕ) (b : UInt8)
  /-- `a0_transport_commit`. -/
  | commit
  /-- `a0_transport_clear`. -/
  | clear
  /-- `a0_transport_resize`. -/
  | resize (size : ℕ)
  deriving DecidableEq

/-- What a process remembers of the frame it has allocated and not committed: its
offset and the size of its data. -/
abbrev Slot := Option (ℕ × ℕ)

/-- Running a call, on a connection in this mode, gives the new slot. -/
def Call.prog (mode : ArenaMode) : Call → Slot → Prog Mem Slot
  | .init size, _ => do
    let _ ← Transport.init ⟨size, mode⟩
    pure none
  | .lock, _ => do
    Transport.lock mode
    pure none
  | .unlock, _ => do
    Transport.unlock mode
    pure none
  | .alloc size, slot => do
    let r ← Transport.alloc mode size
    match r with
    | some (.ok off) => pure (some (off, size))
    | _ => pure slot
  | .put j b, slot =>
    match slot with
    | none => pure none
    | some (off, size) =>
      if j < size then do
        Prog.write fun m => m.store 1 (off + 40 + j) b.toNat
        pure slot
      else pure slot
  | .commit, _ => do
    Transport.commit
    pure none
  | .clear, _ => do
    Transport.clear
    pure none
  | .resize size, slot => do
    let _ ← Transport.resize size
    pure slot

/-- The calls of a session, one after another. -/
def session (mode : ArenaMode) : List Call → Slot → Prog Mem Slot
  | [], slot => pure slot
  | call :: calls, slot => do
    let slot ← call.prog mode slot
    session mode calls slot

/-- Sizes are those of objects. -/
def Call.Fits : Call → Prop
  | .init size | .alloc size | .resize size => size < 2 ^ 62
  | _ => True

instance (call : Call) : Decidable call.Fits := by
  cases call <;> unfold Call.Fits <;> infer_instance

/-- The call allocates. -/
def Call.isAlloc : Call → Bool
  | .alloc _ => true
  | _ => false

/-! ### What a call does -/

/-- The slot is the newest frame that has not been committed. -/
def Outstanding (slot : Slot) (X : List Frame) : Prop :=
  ∀ off size, slot = some (off, size) → ∃ X' f, X = X' ++ [f] ∧ f.off = off ∧ f.data.length = size

theorem outstanding_none : Outstanding none X := by simp [Outstanding]

/-- What is committed at each store of a call. -/
def Call.Mid (m : Mem) (n : ℕ) (C X : List Frame) (q : ℕ) (t : Mem) : Call → Prop
  | .alloc size => Evicting t n C X q size
  | .commit => Logged t n (C ++ X) (q + X.length) ∧
    committedPageIdx t = lnot (committedPageIdx m)
  | .clear => Logged t n C q ∨ Logged t n [] (q + X.length)
  | .resize size => Logged t size C q
  | _ => Logged t n C q

theorem Call.Mid.exists_logged {call : Call} (h : call.Mid m n C X q t) :
    ∃ n' C' q', Logged t n' C' q' := by
  cases call with
  | alloc size =>
    rcases h.logged with hl | ⟨j, -, -, hl⟩
    · exact ⟨_, _, _, hl⟩
    · exact ⟨_, _, _, hl⟩
  | commit => exact ⟨_, _, _, h.1⟩
  | clear =>
    rcases h with h | h
    · exact ⟨_, _, _, h⟩
    · exact ⟨_, _, _, h⟩
  | init | lock | unlock | put | resize => exact ⟨_, _, _, h⟩

/-- What a call leaves. -/
def Call.Post (mode : ArenaMode) (m : Mem) (n : ℕ) (C X : List Frame) (q : ℕ) (slot slot' : Slot) (t : Mem) :
    Call → Prop
  | .init _ | .lock | .unlock => slot' = none ∧ Ready t n C (unlocked mode X) q
  | .alloc size => n < 184 + size ∧ slot' = slot ∧ t = m ∨
    184 + size ≤ n ∧ ∃ f, slot' = some (f.off, size) ∧ Allocated m t n C X q size f
  | .put _ _ => slot' = slot ∧ (t = m ∨ ∃ X' f, X = X' ++ [f] ∧ Ready t n C (X' ++ [f.reread t]) q)
  | .commit => slot' = none ∧ Ready t n (C ++ X) [] (q + X.length)
  | .clear => slot' = none ∧ Ready t n [] [] (q + X.length)
  | .resize size => slot' = slot ∧ (t = m ∨ Ready t size C X q)

/-- What a call does, and what it has committed at each of its stores. -/
theorem Call.prog_wpc {call : Call} {slot : Slot} (hmode : mode ≠ .readonly)
    (h : Ready m n C X q) (hs : Outstanding slot X) (hfits : call.Fits)
    (hq : q + X.length + call.isAlloc.toNat + 1 < 2 ^ 64) :
    (call.prog mode slot).wpc (fun t => call.Mid m n C X q t)
      (fun slot' t => call.Post mode m n C X q slot slot' t) m := by
  cases call with
  | init size =>
    simp only [prog, wpc_bind, wpc_pure]
    exact wpc_mono (init_ready h) (fun _ ht => ht) fun _ t ht => ⟨rfl, ht⟩
  | lock =>
    simp only [prog, wpc_bind, wpc_pure]
    exact wpc_mono (lock_mode mode h) (fun _ ht => ht) fun _ t ht => ⟨rfl, ht⟩
  | unlock =>
    simp only [prog, wpc_bind, wpc_pure, unlock_eq_lock]
    exact wpc_mono (lock_mode mode h) (fun _ ht => ht) fun _ t ht => ⟨rfl, ht⟩
  | alloc size =>
    simp only [prog, wpc_bind]
    refine wpc_mono (alloc_ready hmode h hq (lt_trans hfits (by norm_num))) (fun _ ht => ht)
      fun r t ht => ?_
    rcases ht with ⟨hlt, rfl, rfl⟩ | ⟨hle, f, rfl, ha⟩
    · exact wpc_pure.mpr (.inl ⟨hlt, rfl, rfl⟩)
    · exact wpc_pure.mpr (.inr ⟨hle, f, rfl, ha⟩)
  | put j b =>
    cases slot with
    | none => exact wpc_pure.mpr ⟨rfl, .inl rfl⟩
    | some slot =>
      obtain ⟨off, size⟩ := slot
      obtain ⟨X', f, rfl, rfl, rfl⟩ := hs off size rfl
      simp only [prog]
      split_ifs with hj
      · have := h.sameOutside (t := m.store 1 (f.off + 40 + j) b.toNat)
          (Mem.sameOutside_store (by omega) (by omega))
        simp only [wpc_bind, wpc_write, wpc_pure]
        exact ⟨this.logged, rfl, .inr ⟨X', f, rfl, this⟩⟩
      · exact wpc_pure.mpr ⟨rfl, .inl rfl⟩
  | commit =>
    simp only [prog, wpc_bind, wpc_pure]
    exact wpc_mono (commit_ready h) (fun _ ht => ht) fun _ t ht => ⟨rfl, ht⟩
  | clear =>
    simp only [prog, wpc_bind, wpc_pure]
    exact wpc_mono (clear_ready h) (fun _ ht => ht) fun _ t ht => ⟨rfl, ht⟩
  | resize size =>
    simp only [prog, wpc_bind, wpc_pure]
    exact wpc_mono (resize_ready h hfits) (fun _ ht => ht) fun _ t ht =>
      ⟨rfl, ht.imp And.right And.right⟩

theorem outstanding_snoc (f : Frame) : Outstanding (some (f.off, f.data.length)) (X ++ [f]) := by
  intro off size he
  simp only [Option.some.injEq, Prod.mk.injEq] at he
  exact ⟨X, f, rfl, he.1, he.2⟩

/-- Filling in a frame leaves it where it is. -/
theorem Outstanding.reread {slot : Slot} {f : Frame} (h : Outstanding slot (X ++ [f])) :
    Outstanding slot (X ++ [f.reread t]) := by
  intro off size he
  obtain ⟨X', g, hX, hoff, hlen⟩ := h off size he
  obtain ⟨rfl, hg⟩ := List.append_inj' hX rfl
  obtain rfl : f = g := by simpa using hg
  exact ⟨X, f.reread t, rfl, hoff, by simpa [Frame.reread] using hlen⟩

/-- A call leaves the memory ready, and allocates if the slot says so. -/
theorem Call.Post.ready {call : Call} {slot slot' : Slot} (h : Ready m n C X q)
    (hs : Outstanding slot X) (hp : call.Post mode m n C X q slot slot' t) :
    ∃ n' C' X' q', Ready t n' C' X' q' ∧ Outstanding slot' X' ∧
      q' + X'.length ≤ q + X.length + call.isAlloc.toNat ∧ (X = [] → slot' = none → X' = []) := by
  cases call with
  | init | lock | unlock =>
    obtain ⟨rfl, ht⟩ := hp
    refine ⟨n, C, _, q, ht, outstanding_none, ?_, ?_⟩ <;> simp only [isAlloc] <;>
      grind [unlocked]
  | alloc size =>
    rcases hp with ⟨-, rfl, rfl⟩ | ⟨-, f, rfl, ha⟩
    · exact ⟨n, C, X, q, h, hs, by simp [isAlloc], fun hX _ => hX⟩
    · rw [← ha.length]
      rcases ha.ready with ⟨-, ht⟩ | ⟨-, ht⟩
      · exact ⟨n, C, _, q, ht, outstanding_snoc f, by simp [isAlloc]; omega, by simp⟩
      · exact ⟨n, _, _, _, ht, outstanding_snoc (X := []) f, by simp [isAlloc], by simp⟩
  | put j b =>
    obtain ⟨rfl, rfl | ⟨X', f, rfl, ht⟩⟩ := hp
    · exact ⟨n, C, X, q, h, hs, by simp [isAlloc], fun hX _ => hX⟩
    · exact ⟨n, C, _, q, ht, hs.reread, by simp [isAlloc], by simp⟩
  | commit =>
    obtain ⟨rfl, ht⟩ := hp
    exact ⟨n, _, [], _, ht, outstanding_none, by simp [isAlloc], fun _ _ => rfl⟩
  | clear =>
    obtain ⟨rfl, ht⟩ := hp
    exact ⟨n, [], [], _, ht, outstanding_none, by simp [isAlloc], fun _ _ => rfl⟩
  | resize size =>
    obtain ⟨rfl, rfl | ht⟩ := hp
    · exact ⟨n, C, X, q, h, hs, by simp [isAlloc], fun hX _ => hX⟩
    · exact ⟨size, C, X, q, ht, hs, by simp [isAlloc], fun hX _ => hX⟩

/-- Into a transport with no frames, a frame that fits is allocated. -/
theorem Ready.alloc {size : ℕ} (hmode : mode ≠ .readonly) (h : Ready m n [] [] q)
    (hfit : 184 + size ≤ n) (hsize : size < 2 ^ 62) (hq : q + 2 < 2 ^ 64) :
    ∃ f q', Ready ((Call.prog mode (.alloc size) none).exec m) n [] [f] q' := by
  have hp : Call.Post mode m n [] [] q none _ _ (.alloc size) :=
    post_of_wpc (Call.prog_wpc hmode h outstanding_none (show (Call.alloc size).Fits from hsize) hq)
  rcases hp with ⟨hlt, -⟩ | ⟨-, f, -, ha⟩
  · omega
  · rcases ha.ready with ⟨-, ht⟩ | ⟨-, ht⟩
    · exact ⟨f, _, ht⟩
    · rw [show kept n size ([] ++ []) = [] from List.drop_nil] at ht
      exact ⟨f, _, ht⟩

/-- A session leaves the memory ready. -/
theorem session_ready {calls : List Call} {slot : Slot} (hmode : mode ≠ .readonly)
    (h : Ready m n C X q) (hs : Outstanding slot X) (hfits : ∀ call ∈ calls, call.Fits)
    (hq : q + X.length + calls.countP Call.isAlloc + 1 < 2 ^ 64) :
    ∃ n' C' X' q', Ready ((session mode calls slot).exec m) n' C' X' q' := by
  induction calls generalizing m n C X q slot with
  | nil => exact ⟨n, C, X, q, h⟩
  | cons call calls ih =>
    rw [List.countP_cons] at hq
    have hcount : (if call.isAlloc = true then 1 else 0) = call.isAlloc.toNat := by
      cases call.isAlloc <;> rfl
    have hp := post_of_wpc (call.prog_wpc hmode h hs (hfits call (by simp)) (by omega))
    obtain ⟨n', C', X', q', h', hs', hq', -⟩ := hp.ready h hs
    exact ih h' hs' (fun c hc => hfits c (by simp [hc])) (by omega)

/-! ### Well-formed logs -/

/-- The frames found from `off_head` by following `next_off` are a log: their
sequence numbers are those from `seq_low` to `seq_high`, the last one is at
`off_tail`, each is where its header says, with its predecessor where its header
says, all lie in the arena behind the header, aligned, and no two overlap. -/
structure LogAt (m : Mem) (s : TransportState) : Prop where
  seqs : (framesOf m s).map Frame.seq = List.range' s.seqLow (s.seqHigh + 1 - s.seqLow)
  tail : (framesOf m s).getLast?.map Frame.off = some s.offTail
  self : ∀ f ∈ framesOf m s, frameOff m f.off = f.off
  prev : (framesOf m s).IsChain fun f g => framePrevOff m g.off = f.off
  aligned : ∀ f ∈ framesOf m s, maxAlign f.off = f.off ∧ workspaceOff ≤ f.off
  inside : ∀ f ∈ framesOf m s, f.off + 40 + frameDataSize m f.off ≤ arenaSize m
  disjoint : (framesOf m s).Pairwise fun f g =>
    f.off + 40 + frameDataSize m f.off ≤ g.off ∨ g.off + 40 + frameDataSize m g.off ≤ f.off

/-- A page describes a well-formed log: none, or a log. -/
def WellFormed (m : Mem) (s : TransportState) : Prop := s.empty = true ∨ LogAt m s

theorem Holds.wellFormed (h : Holds m n s fs) (hn : arenaSize m = n) : WellFormed m s := by
  refine or_iff_not_imp_left.mpr fun hne => ?_
  have hfs : fs ≠ [] := fun hnil => hne (h.page.empty_iff.mpr hnil)
  have hlen : fs.length = s.seqHigh + 1 - s.seqLow := by
    rcases h.page.high with hh | hh
    · omega
    · exact absurd hh.1 hfs
  have hsize : ∀ f ∈ fs, f.off + 40 + frameDataSize m f.off = f.stop := fun f hf => by
    rw [(h.linked.stored f hf).size]; rfl
  have he := framesOf_eq h
  refine ⟨?_, ?_, ?_, ?_, ?_, ?_, ?_⟩ <;> rw [he]
  · rw [← hlen]; exact h.page.seqs
  · rw [h.page.tail, List.getLast?_eq_getLast_of_ne_nil hfs]; rfl
  · exact fun f hf => (h.linked.stored f hf).off
  · exact h.linked.links.imp fun _ _ hl => hl.2
  · intro f hf
    have h₁ := h.layout.aligned f hf
    have h₂ := h.layout.lower f hf
    have h₃ := h.layout.upper f hf
    have h₄ := h.layout.size
    unfold Frame.stop at h₃
    rw [maxAlign_eq (by omega), workspaceOff_eq]
    omega
  · intro f hf
    rw [hsize f hf, hn]; exact h.layout.upper f hf
  · exact h.layout.disjoint.imp_of_mem fun hf hg hd => by rwa [hsize _ hf, hsize _ hg]

theorem Ready.wellFormed (h : Ready m n C X q) :
    WellFormed m (workingState m) ∧ WellFormed m (committedState m) := by
  obtain ⟨-, i, c, w, hv, hc, -, hw, -⟩ := h
  rw [hv.workingState_eq, hv.committedView.state]
  exact ⟨hw.wellFormed hv.size, hc.wellFormed hv.size⟩

/-- The memory after a session on an arena that was all zero. -/
def reached (mode : ArenaMode) (calls : List Call) : Mem := (session mode calls none).exec fun _ => 0

/-- An arena that was all zero, just opened. -/
theorem reached_init (mode : ArenaMode) {n : ℕ} (hn : n < 2 ^ 62) :
    Ready (reached mode [.init n]) n [] [] 0 := by
  have hblank : Blank (workingState fun _ => 0) := by
    simp [Blank, workingState, loadState, Mem.load_zeros]
  exact post_of_wpc (init_fresh (a := ⟨n, mode⟩) (.inr hblank) hn fresh_zeros)

/-- After any calls, in any order, on an arena that was all zero, the memory is
ready. The first call is `a0_transport_init`, since there is no connection to make
another one on. -/
theorem reached_ready {size : ℕ} {calls : List Call} (hmode : mode ≠ .readonly)
    (hfits : ∀ call ∈ Call.init size :: calls, call.Fits)
    (hcount : calls.countP Call.isAlloc < 2 ^ 64 - 1) :
    ∃ n C X q, Ready (reached mode (.init size :: calls)) n C X q := by
  have hrest : ∀ call ∈ calls, call.Fits := fun c hc => hfits c (by simp [hc])
  have hr := reached_init mode (hfits (.init size) (by simp))
  have h := session_ready hmode hr outstanding_none hrest (by simp; omega)
  exact h

/-- Calls can reach this memory, in fewer than 2^64 - 1 allocations. -/
def Reachable (mode : ArenaMode) (m : Mem) : Prop := ∃ size calls,
  (∀ call ∈ Call.init size :: calls, call.Fits) ∧ calls.countP Call.isAlloc < 2 ^ 64 - 1 ∧
    m = reached mode (.init size :: calls)

theorem Reachable.ready (hmode : mode ≠ .readonly) (h : Reachable mode m) :
    ∃ n C X q, Ready m n C X q := by
  obtain ⟨size, calls, hfits, hcount, rfl⟩ := h
  exact reached_ready hmode hfits hcount

/-- **The representation invariant**: after any calls, in any order, on an arena
that was all zero, both pages are well formed. -/
theorem session_wellFormed {calls : List Call}
    (hopen : ∀ call ∈ calls.head?, ∃ size, call = .init size)
    (hfits : ∀ call ∈ calls, call.Fits) (hcount : calls.countP Call.isAlloc < 2 ^ 64 - 1) :
    WellFormed (reached .shared calls) (workingState (reached .shared calls)) ∧
      WellFormed (reached .shared calls) (committedState (reached .shared calls)) := by
  cases calls with
  | nil =>
    simp [reached, session, WellFormed, TransportState.empty, workingState, committedState,
      loadState, Mem.load_zeros]
  | cons call calls =>
    obtain ⟨size, rfl⟩ := hopen call (by simp)
    rw [List.countP_cons_of_neg (by simp [Call.isAlloc])] at hcount
    obtain ⟨n, C, X, q, h⟩ := reached_ready (show ArenaMode.shared ≠ .readonly by decide) hfits hcount
    exact h.wellFormed

theorem session_wellFormed_run :
    WellFormed (reached .shared [.init 1000, .lock, .alloc 8, .commit, .alloc 900, .unlock])
      (workingState (reached .shared [.init 1000, .lock, .alloc 8, .commit, .alloc 900,
        .unlock])) ∧
    WellFormed (reached .shared [.init 1000, .lock, .alloc 8, .commit, .alloc 900, .unlock])
      (committedState (reached .shared [.init 1000, .lock, .alloc 8, .commit, .alloc 900,
        .unlock])) :=
  session_wellFormed (by simp) (by decide) (by decide)

end Transport

end AlephZero
