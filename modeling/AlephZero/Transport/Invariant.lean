import AlephZero.Transport.Alloc

/-!
# The invariant of the transport

`Ready m n C X q`: in memory `m`, with an arena of size `n`, the committed page
describes the frames `C`, the newest of them, or the newest there ever was, has
sequence number `q`, and the working page describes `C` and behind it the frames
`X` that have been allocated and not been committed. `Logged m n C q` is the part
of it that outlives the holder of the lock. Each function of the transport takes
a ready memory to a ready one, and every store it makes leaves a logged one.

## What is proved

* `lock_ready`, `alloc_ready`, `commit_ready`, `clear_ready`, `resize_ready`,
  `init_ready`, `init_fresh` — one specification for each function.
* `Ready.sameOutside` — storing to the data of the newest frame changes this
  frame's data and nothing else.
-/

namespace AlephZero

open ByteMem StoreProg Prog IntervalRing

namespace Transport

variable {m t : Mem} {n q size : ℕ} {c w s : TransportState} {fs C X : List Frame} {f : Frame}

/-- The arena has been initialised, and not by version 0.2. -/
def Opened (m : Mem) : Prop := initialized m = true ∧ m 0 ≠ 1

/-- The committed page describes `C`, and `q` is its `seq_high`. -/
def Logged (m : Mem) (n : ℕ) (C : List Frame) (q : ℕ) : Prop :=
  Opened m ∧ ∃ c, Committed m c n ∧ Holds m n c C ∧ c.seqHigh = q

/-- The committed page describes `C`, the working page `C ++ X`; and if `X` is empty
the pages are the same. -/
def Ready (m : Mem) (n : ℕ) (C X : List Frame) (q : ℕ) : Prop :=
  Opened m ∧ ∃ i c w, View m i c w n ∧ Holds m n c C ∧ c.seqHigh = q ∧
    Holds m n w (C ++ X) ∧ w.seqHigh = q + X.length ∧ (X = [] → w = c)

theorem Opened.sameFrames (h : Opened m) (hs : SameFrames m t) : Opened t := by
  refine ⟨?_, by rw [hs 0 (by omega)]; exact h.2⟩
  rw [initialized, hs.load_low (by omega)]
  exact h.1

theorem Opened.placedAt {off tail : ℕ} (h : Opened m) (hoff : 144 ≤ off)
    (hp : PlacedAt off tail m t) : Opened t := by
  refine ⟨?_, by rw [hp 0 (by omega) (by omega) (by omega)]; exact h.2⟩
  rw [initialized, Mem.load_congr fun x _ _ => hp x (by omega) (by omega) (by omega)]
  exact h.1

/-- Two equal pages. -/
theorem ready_of_same {i : ℕ} (ho : Opened m) (hv : View m i c c n) (h : Holds m n c C)
    (hq : c.seqHigh = q) : Ready m n C [] q :=
  ⟨ho, i, c, c, hv, h, hq, by simpa using h, by simpa using hq, fun _ => rfl⟩

/-- With nothing left to commit the working page equals the committed page. -/
theorem Ready.same (h : Ready m n C [] q) : workingState m = committedState m := by
  obtain ⟨-, i, c, w, hv, -, -, -, -, he⟩ := h
  rw [hv.workingState_eq, hv.committedView.state, he rfl]

theorem Ready.logged (h : Ready m n C X q) : Logged m n C q := by
  obtain ⟨ho, i, c, w, hv, hc, hq, -⟩ := h
  exact ⟨ho, c, hv.committedView, hc, hq⟩

theorem Logged.sameFrames (h : Opened m) (hc : Holds m n c C) (hq : c.seqHigh = q)
    (hs : SameFrames m t) (ht : Committed t c n) : Logged t n C q :=
  ⟨h.sameFrames hs, c, ht, hc.sameFrames hs, hq⟩

/-- Equal pages are as good as an unlock. -/
theorem Logged.ready (h : Logged m n C q) (he : workingState m = committedState m) :
    Ready m n C [] q := by
  obtain ⟨ho, c, hc, hh, hq⟩ := h
  have hv := view_of_le hc.le
  rw [he, hc.state, hc.size] at hv
  exact ready_of_same ho hv hh hq

theorem Holds.drop {k : ℕ} (h : Holds m n w fs) (hp : PageOf s (fs.drop k)) :
    Holds m n s (fs.drop k) := by
  refine ⟨hp, ⟨fun f hf => h.linked.stored f (List.drop_subset _ _ hf), h.linked.links.drop k⟩,
    ⟨h.layout.ring.drop k, fun f hf => h.layout.lower f (List.drop_subset _ _ hf),
      fun f hf => h.layout.upper f (List.drop_subset _ _ hf),
      fun f hf => h.layout.aligned f (List.drop_subset _ _ hf), h.layout.size⟩⟩

/-! ### Locking, committing, clearing -/

/-- `a0_transport_lock` drops what has not been committed. -/
theorem lock_ready (h : Logged m n C q) :
    (lock .shared).wpc (fun t => Logged t n C q) (fun _ t => Ready t n C [] q) m := by
  obtain ⟨ho, c, hc, hh, hq⟩ := h
  refine wpc_mono (lock_wpc hc) (fun t ht => .sameFrames ho hh hq ht.1 ht.2) fun _ t ht => ?_
  exact ready_of_same (ho.sameFrames ht.1) ht.2 (hh.sameFrames ht.1) hq

/-- `a0_transport_commit` commits what the working page describes, in one store. -/
theorem commit_ready (h : Ready m n C X q) :
    commit.wpc
      (fun t => Logged t n (C ++ X) (q + X.length) ∧ committedPageIdx t = lnot (committedPageIdx m))
      (fun _ t => Ready t n (C ++ X) [] (q + X.length)) m := by
  obtain ⟨ho, i, c, w, hv, -, -, hw, hq, -⟩ := h
  refine wpc_mono (commit_wpc hv) (fun t ht => ?_) fun _ t ht => ?_
  · exact ⟨.sameFrames ho hw hq ht.1 ht.2.1, by rw [ht.2.2, hv.idx]⟩
  · exact ready_of_same (ho.sameFrames ht.1) ht.2 (hw.sameFrames ht.1) hq

/-- `a0_cnd_broadcast` stores to the condition's counter only. -/
theorem cndBroadcast_ready (h : Ready m n C X q) :
    cndBroadcast.wpc (fun t => Logged t n C q) (fun _ t => Ready t n C X q) m := by
  obtain ⟨ho, i, c, w, hv, hc, hcq, hw, hq, he⟩ := h
  have hs : SameFrames m (m.store 4 40 (m.load 4 40 + 1)) := sameFrames_store (by omega)
  have hr : Ready (m.store 4 40 (m.load 4 40 + 1)) n C X q :=
    ⟨ho.sameFrames hs, i, c, w, hv.store_cnd, hc.sameFrames hs, hcq, hw.sameFrames hs, hq, he⟩
  exact wpc_write.mpr ⟨hr.logged, hr⟩

theorem Holds.clear (h : Holds m n w fs) : Holds m n (clearState w) [] :=
  ⟨h.page.clear, .nil m, .nil h.layout.size⟩

/-- `a0_transport_clear`. -/
theorem clear_ready (h : Ready m n C X q) :
    clear.wpc (fun t => Logged t n C q ∨ Logged t n [] (q + X.length))
      (fun _ t => Ready t n [] [] (q + X.length)) m := by
  obtain ⟨ho, i, c, w, hv, hc, hcq, hw, hq, -⟩ := h
  refine wpc_mono (clear_wpc hv) (fun t ⟨hs, ht⟩ => ?_) fun _ t ⟨hs, ht⟩ => ?_
  · exact ht.imp (.sameFrames ho hc hcq hs) (.sameFrames ho hw.clear hq hs)
  · exact ready_of_same (ho.sameFrames hs) ht (hw.clear.sameFrames hs) hq

/-- The frames of a page end at its high water mark at the latest. -/
theorem Holds.resize {k : ℕ} (h : Holds m n w (C ++ X)) (hc : Holds m n c C)
    (hk : w.highWaterMark ≤ k) (hk' : k < 2 ^ 62) : Holds m k c C ∧ Holds m k w (C ++ X) := by
  have hup : ∀ f ∈ C ++ X, f.stop ≤ k := fun f hf =>
    (le_maxHi hf).trans (h.page.mark ▸ hk)
  exact ⟨⟨hc.page, hc.linked, hc.layout.ring, hc.layout.lower, fun f hf => hup f (by simp [hf]),
      hc.layout.aligned, hk'⟩,
    ⟨h.page, h.linked, h.layout.ring, h.layout.lower, hup, h.layout.aligned, hk'⟩⟩

/-- `a0_transport_resize` fails, or changes the size of the arena. -/
theorem resize_ready {k : ℕ} (h : Ready m n C X q) (hk : k < 2 ^ 62) :
    (resize k).wpc (fun t => Logged t k C q)
      (fun r t => r = .error .invalidArg ∧ t = m ∨ r = .ok () ∧ Ready t k C X q) m := by
  obtain ⟨ho, i, c, w, hv, hc, hcq, hw, hq, he⟩ := h
  refine wpc_mono (resize_wpc hv (by omega)) (fun t ⟨hs, hle, ht⟩ => ?_) fun r t ⟨hs, ht⟩ => ?_
  · exact .sameFrames ho (hw.resize hc hle hk).1 hcq hs ht
  · rcases ht with ⟨-, hr, rfl⟩ | ⟨hle, hr, ht⟩
    · exact .inl ⟨hr, rfl⟩
    · obtain ⟨hc', hw'⟩ := hw.resize hc hle hk
      exact .inr ⟨hr, ho.sameFrames hs, i, c, w, ht, hc'.sameFrames hs, hcq,
        hw'.sameFrames hs, hq, he⟩

/-! ### Allocating -/

/-- The offset of the newest frame, 0 if there is none. -/
def lastOff (fs : List Frame) : ℕ := (fs.getLast?.map Frame.off).getD 0

/-- How many frames an allocation of `size` bytes evicts. -/
def evictions (n size : ℕ) (fs : List Frame) : ℕ :=
  evictCount (slotOff n (40 + size) fs) (40 + size) fs

/-- The frames left when an allocation of `size` bytes has evicted. -/
def kept (n size : ℕ) (fs : List Frame) : List Frame := fs.drop (evictions n size fs)

theorem slotOff_drop {k : ℕ} (h : fs.drop k ≠ []) :
    slotOff n size fs = slotOff n size (fs.drop k) := by
  have hk : ¬ fs.length ≤ k := by simpa using h
  rw [slotOff, slotOff, List.getLast?_drop, if_neg hk]

theorem length_lt_evictFuel (h : PageOf w fs) : fs.length < evictFuel w := by
  unfold evictFuel
  rcases h.high with hh | ⟨rfl, h₁, h₂⟩
  · omega
  · simp [h₁, h₂]

/-- The slot that `a0_transport_alloc` finds holds a frame. -/
theorem Layout.place (h : Layout n fs) (hfit : 184 + size ≤ n)
    (hoff : f.off = slotOff n (40 + size) fs) (hlen : f.data.length = size) :
    Layout n (kept n size fs ++ [f]) := by
  have hdrop : Layout n (kept n size fs) :=
    ⟨h.ring.drop _, fun f hf => h.lower f (List.drop_subset _ _ hf),
      fun f hf => h.upper f (List.drop_subset _ _ hf),
      fun f hf => h.aligned f (List.drop_subset _ _ hf), h.size⟩
  have hstop : f.stop = slotOff n (40 + size) fs + (40 + size) := by
    rw [Frame.stop, hoff, hlen]; omega
  exact hdrop.snoc (by omega) hoff hstop (fun hne => slotOff_drop hne)
    (fun _ => slotOff_spec h (by omega)) not_evicts_drop

/-- What an allocation leaves: the new frame `f` stands behind those kept. -/
structure Allocated (m t : Mem) (n : ℕ) (C X : List Frame) (q size : ℕ) (f : Frame) : Prop where
  off : f.off = slotOff n (40 + size) (C ++ X)
  seq : f.seq = q + X.length + 1
  length : f.data.length = size
  placed : PlacedAt f.off (lastOff (kept n size (C ++ X))) m t
  ready : evictions n size (C ++ X) = 0 ∧ Ready t n C (X ++ [f]) q ∨
    0 < evictions n size (C ++ X) ∧ Ready t n (kept n size (C ++ X)) [f] (q + X.length)

/-- While an allocation runs, what is committed is what was, or, an eviction being
committed at once, what some of the evictions leave. The frames that are kept are
there all along. -/
structure Evicting (t : Mem) (n : ℕ) (C X : List Frame) (q size : ℕ) : Prop where
  fits : 184 + size ≤ n
  logged : Logged t n C q ∨ ∃ j, 0 < j ∧ j ≤ evictions n size (C ++ X) ∧
    Logged t n ((C ++ X).drop j) (q + X.length)
  stored : ∀ f ∈ kept n size (C ++ X), f.In t

/-- What is committed is still there when a new frame has been placed. -/
theorem Logged.placedAt (ho : Opened m) (h : Holds m n w fs) (hl : Layout n (fs ++ [f]))
    (hp : PlacedAt f.off (lastOff fs) m t) (hf : 144 ≤ f.off) {Y : List Frame}
    (hc : Holds m n c C) (hpre : fs = C ++ Y) (hq : c.seqHigh = q) (ht : Committed t c n) :
    Logged t n C q := by
  have hold : Linked t fs := h.linked.placedAt hl hp
  rw [hpre] at hold
  exact ⟨ho.placedAt hf hp, c, ht, ⟨hc.page, hold.left, hc.layout⟩, hq⟩

/-- The newest frame's header is apart from a new frame. -/
theorem tail_apart (h : Holds m n w fs) (hl : Layout n (fs ++ [f])) :
    w.offTail = 0 ∨ 144 ≤ w.offTail ∧
      (w.offTail + 40 ≤ f.off ∨ f.off + 40 + f.data.length ≤ w.offTail) := by
  rw [h.page.tail]
  rcases List.eq_nil_or_concat fs with rfl | ⟨ys, z, rfl⟩
  · exact .inl rfl
  · rw [List.concat_eq_append] at *
    have hd := (List.pairwise_append.mp hl.disjoint).2.2 z (by simp) f (by simp)
    have hz := h.layout.lower z (by simp)
    simp only [List.getLast?_concat, Option.map_some, Option.getD_some]
    unfold Frame.stop at hd
    omega

/-- What the eviction loop of an allocation leaves. -/
structure Freed (m u : Mem) (n : ℕ) (C X : List Frame) (q size i : ℕ) (c w : TransportState) :
    Prop where
  room : Layout n (C ++ X)
  opened : Opened u
  frames : SameFrames m u
  view : View u i c w n
  holds : Holds u n w (kept n size (C ++ X))
  high : w.seqHigh = q + X.length
  committed : evictions n size (C ++ X) = 0 ∧ Holds u n c C ∧ c.seqHigh = q ∨
    0 < evictions n size (C ++ X) ∧ c = w

theorem kept_eq_self (h : evictions n size fs = 0) : kept n size fs = fs := by
  rw [kept, h, List.drop_zero]

/-- The stores that place a frame commit nothing. -/
theorem Freed.evicting {u : Mem} {i : ℕ} (h : Freed m u n C X q size i c w)
    (hfit : 184 + size ≤ n) (hl : Layout n (kept n size (C ++ X) ++ [f]))
    (hp : PlacedAt f.off (lastOff (kept n size (C ++ X))) u t) (ht : Committed t c n) :
    Evicting t n C X q size := by
  have hf := hl.lower f (by simp)
  refine ⟨hfit, ?_, (h.holds.linked.placedAt hl hp).stored⟩
  rcases h.committed with ⟨hk, hc, hq⟩ | ⟨hk, rfl⟩
  · rw [kept_eq_self hk] at hl hp
    have hw := h.holds
    rw [kept_eq_self hk] at hw
    exact .inl (.placedAt h.opened hw hl hp hf hc rfl hq ht)
  · exact .inr ⟨_, hk, le_rfl, .placedAt h.opened h.holds hl hp hf (Y := []) h.holds
      (List.append_nil _).symm h.high ht⟩

/-- With them the frame stands behind those kept. -/
theorem Freed.allocated {u : Mem} {i : ℕ} (h : Freed m u n C X q size i c w)
    (hl : Layout n (kept n size (C ++ X) ++ [f])) (hoff : f.off = slotOff n (40 + size) (C ++ X))
    (hseq : f.seq = w.seqHigh + 1) (hlen : f.data.length = size) (hq : q + X.length + 2 < 2 ^ 64)
    (hp : PlacedAt f.off (lastOff (kept n size (C ++ X))) u t)
    (ht : View t i c (placeState w f) n) (hin : f.In t)
    (hlink : lastOff (kept n size (C ++ X)) ≠ 0 →
      frameNextOff t (lastOff (kept n size (C ++ X))) = f.off ∧
        framePrevOff t f.off = lastOff (kept n size (C ++ X))) :
    Allocated m t n C X q size f := by
  have hhigh := h.high
  have htail : w.offTail = lastOff (kept n size (C ++ X)) := h.holds.page.tail
  rw [← htail] at hlink hp
  have hnew : Holds t n (placeState w f) (kept n size (C ++ X) ++ [f]) :=
    h.holds.place hl hp hin hseq (by omega) hlink
  have hold := hnew.linked.left
  have hopen := h.opened.placedAt (hl.lower f (by simp)) hp
  refine ⟨hoff, by omega, hlen, h.frames.placedAt.trans (htail ▸ hp), ?_⟩
  rcases h.committed with ⟨hk, hc, hcq⟩ | ⟨hk, rfl⟩
  · rw [kept_eq_self hk] at hnew hold
    refine .inl ⟨hk, hopen, i, c, _, ht, ⟨hc.page, hold.left, hc.layout⟩, hcq, ?_, ?_, by simp⟩
    · rw [← List.append_assoc]; exact hnew
    · simp only [placeState, List.length_append, List.length_singleton]; omega
  · refine .inr ⟨hk, hopen, i, c, _, ht, ⟨h.holds.page, hold, h.holds.layout⟩, hhigh, hnew, ?_,
      by simp⟩
    simp only [placeState, List.length_singleton]; omega

/-- The four functions that place a frame, after the eviction loop. -/
theorem place_ready {u : Mem} {i : ℕ} (h : Freed m u n C X q size i c w) (hfit : 184 + size ≤ n)
    (hq : q + X.length + 2 < 2 ^ 64) {off : ℕ} (hoff : off = slotOff n (40 + size) (C ++ X)) :
    (slotInit (statePage (lnot i)) off off size >>= fun _ =>
      maybeSetHead (statePage (lnot i)) off >>= fun _ =>
      updateTail (statePage (lnot i)) off >>= fun _ =>
      updateHighWaterMark (statePage (lnot i)) off).wpc
      (fun t => Evicting t n C X q size)
      (fun _ t => ∃ f : Frame, off = f.off ∧ Allocated m t n C X q size f) u := by
  have hall := h.high
  -- the frame that the header stored next describes
  obtain ⟨f, hf⟩ : ∃ f : Frame, f = ⟨w.seqHigh + 1, off, u.loadBytes (off + 40) size⟩ := ⟨_, rfl⟩
  have hfoff : f.off = off := by rw [hf]
  have hlen : f.data.length = size := by rw [hf, Mem.length_loadBytes]
  have hl := h.room.place hfit (hfoff.trans hoff) hlen
  have hup := hl.upper f (by simp)
  have hlo := hl.lower f (by simp)
  have hn := hl.size
  have htail : w.offTail = lastOff (kept n size (C ++ X)) := h.holds.page.tail
  have hapart := tail_apart h.holds hl
  unfold Frame.stop at hup
  refine wpc_mono (place_wpc h.view (by omega) (by omega) (by omega) (by omega))
    (fun t ⟨hp, ht⟩ => h.evicting hfit hl (by rw [hfoff, ← htail]; exact hp) ht)
    fun _ t ⟨hp, ht, hh, hlink⟩ => ⟨f, hfoff.symm, ?_⟩
  rw [← hf] at ht
  have hin : f.In t := by
    refine ⟨?_, ?_, ?_, ?_⟩
    · rw [hfoff]; exact hh.seq.trans (by rw [hf])
    · rw [hfoff]; exact hh.off
    · rw [hfoff, hlen]; exact hh.size
    · have hsame : t.loadBytes (f.off + 40) f.data.length = u.loadBytes (f.off + 40) f.data.length :=
        Mem.loadBytes_congr fun x hx hx' => hp x (by omega) (by omega) (by omega)
      rw [hsame, hlen, hf]
  refine h.allocated hl (hfoff.trans hoff) (by rw [hf]) hlen hq ?_ ht hin ?_
  · rw [hfoff, ← htail]; exact hp
  · rw [hfoff, ← htail]; exact hlink

/-- `a0_transport_alloc`: it fails at once if no slot is large enough, and places
a frame otherwise. -/
theorem alloc_ready {mode : ArenaMode} (hmode : mode ≠ .readonly) (h : Ready m n C X q)
    (hq : q + X.length + 2 < 2 ^ 64) (hsize : size < 2 ^ 63) :
    (alloc mode size).wpc (fun t => Evicting t n C X q size)
      (fun r t => n < 184 + size ∧ r = some (.error .frameLarge) ∧ t = m ∨
        184 + size ≤ n ∧ ∃ f, r = some (.ok f.off) ∧ Allocated m t n C X q size f) m := by
  obtain ⟨ho, i, c, w, hv, hc, hcq, hw, hwq, -⟩ := h
  have hn := hw.layout.size
  have hwrap : wrap (40 + size) = 40 + size := wrap_of_lt (by omega)
  rw [alloc, if_neg hmode, hwrap]
  have hslot : findSlot m (40 + size) = _ := findSlot_eq hv hw (by omega)
  simp only [wpc_bind, wpc_read, hslot]
  by_cases hfit : n < 184 + size
  · rw [if_pos (by omega)]
    exact wpc_pure.mpr (.inl ⟨hfit, rfl, rfl⟩)
  rw [if_neg (by omega)]
  obtain ⟨hoff, hend, -⟩ : 144 ≤ slotOff n (40 + size) (C ++ X) ∧ _ ∧ _ :=
    slotOff_spec hw.layout (by omega)
  simp only [wpc_bind, wpc_read, hv.workingState_eq]
  refine wpc_mono (evict_wpc hv hw (by omega) (length_lt_evictFuel hw.page)) ?_ ?_
  · rintro t ⟨hs, ht⟩
    refine ⟨by omega, ?_, fun f hf => (hw.sameFrames hs).linked.stored f (List.drop_subset _ _ hf)⟩
    rcases ht with ht | ⟨j, w', hj, hjk, ht, hp, hhigh⟩
    · exact .inl (.sameFrames ho hc hcq hs ht)
    · exact .inr ⟨j, hj, hjk, .sameFrames ho (hw.drop hp) (hhigh.trans hwq) hs ht⟩
  rintro _ u ⟨rfl, hs, i', c', w', hv', hh', hhigh, hcase⟩
  have hfree : Freed m u n C X q size i' c' w' := by
    refine ⟨hw.layout, ho.sameFrames hs, hs, hv', hh', hhigh.trans hwq, hcase.imp ?_ id⟩
    rintro ⟨hk, rfl, rfl⟩
    exact ⟨hk, hc, hcq⟩
  simp only [if_true, wpc_bind, wpc_read, hv'.workingPage_eq]
  have hplace := wpc_mono (place_ready hfree (by omega) hq rfl) (fun _ ht => ht)
    (R := fun _ t => n < 184 + size ∧ some (Except.ok (slotOff n (40 + size) (C ++ X))) =
        some (Except.error Err.frameLarge) ∧ t = m ∨
      184 + size ≤ n ∧ ∃ f : Frame, (some (.ok (slotOff n (40 + size) (C ++ X))) :
        Option (Except Err ℕ)) = some (.ok f.off) ∧ Allocated m t n C X q size f)
    (by rintro _ t ⟨f, hfoff, ht⟩; exact .inr ⟨by omega, f, by rw [hfoff], ht⟩)
  simpa only [wpc_bind, wpc_pure] using hplace

/-! ### Filling in a frame -/

/-- A frame with the data a memory has for it. -/
def Frame.reread (t : Mem) (f : Frame) : Frame :=
  { f with data := t.loadBytes (f.off + 40) f.data.length }

theorem Frame.stop_reread : (f.reread t).stop = f.stop := by simp [Frame.stop, Frame.reread]

theorem Frame.In.reread (h : f.In m)
    (hb : ∀ x, f.off ≤ x → x < f.stop → t x = m x) : f.reread t = f := by
  have : t.loadBytes (f.off + 40) f.data.length = f.data := by
    refine Eq.trans (Mem.loadBytes_congr fun x hx hx' => ?_) h.data
    exact hb x (by omega) (by unfold Frame.stop; omega)
  rw [Frame.reread, this]

/-- Nothing but their data has to be read again when their headers are the same. -/
theorem Holds.reread (h : Holds m n w fs)
    (hb : ∀ f ∈ fs, ∀ x, f.off ≤ x → x < f.off + 40 → t x = m x) :
    Holds t n w (fs.map (Frame.reread t)) := by
  have word : ∀ f ∈ fs, ∀ k, k + 8 ≤ 40 → t.load 8 (f.off + k) = m.load 8 (f.off + k) :=
    fun f hf k hk => Mem.load_congr fun x hx hx' => hb f hf x (by omega) (by omega)
  refine ⟨⟨?_, ?_, ?_, ?_, ?_, ?_, h.page.fits⟩, ⟨?_, ?_⟩, ⟨?_, ?_, ?_, ?_, h.layout.size⟩⟩
  · simpa [Function.comp_def, Frame.reread] using h.page.seqs
  · simpa using h.page.high
  · simpa using h.page.pos
  · simpa [Function.comp_def, Frame.reread] using h.page.head
  · simpa [Function.comp_def, Frame.reread] using h.page.tail
  · rw [maxHi_map fun f => Frame.stop_reread]; exact h.page.mark
  · intro g hg
    obtain ⟨f, hf, rfl⟩ := List.mem_map.mp hg
    have hin := h.linked.stored f hf
    exact ⟨(word f hf 0 (by omega)).trans hin.seq, (word f hf 8 (by omega)).trans hin.off,
      (word f hf 32 (by omega)).trans (hin.size.trans (Mem.length_loadBytes _ _ _).symm),
      by simp [Frame.reread]⟩
  · rw [List.isChain_map, List.isChain_iff_getElem]
    intro i hi
    obtain ⟨h₁, h₂⟩ := List.isChain_iff_getElem.mp h.linked.links i hi
    exact ⟨(word _ (List.getElem_mem _) 16 (by omega)).trans h₁,
      (word _ (List.getElem_mem _) 24 (by omega)).trans h₂⟩
  · exact h.layout.ring.map (fun _ => rfl) fun _ => Frame.stop_reread
  · simpa [Frame.reread] using h.layout.lower
  · simpa [Frame.stop_reread] using h.layout.upper
  · simpa [Frame.reread] using h.layout.aligned

/-- Storing to the data of the newest frame changes this frame's data and
nothing else. -/
theorem Ready.sameOutside (h : Ready m n C (X ++ [f]) q)
    (hs : Mem.SameOutside (f.off + 40) f.data.length m t) :
    Ready t n C (X ++ [f.reread t]) q := by
  obtain ⟨ho, i, c, w, hv, hc, hq, hw, hwq, -⟩ := h
  have hf := hw.layout.lower f (by simp)
  have hdis : ∀ g ∈ C ++ X, g.stop ≤ f.off ∨ f.stop ≤ g.off := fun g hg => by
    have := hw.layout.disjoint
    rw [← List.append_assoc] at this
    exact (List.pairwise_append.mp this).2.2 g hg f (by simp)
  have hkeep : ∀ g ∈ C ++ X, ∀ x, g.off ≤ x → x < g.stop → t x = m x := fun g hg x hx hx' => by
    have := hdis g hg
    unfold Frame.stop at this hx'
    exact hs x (by omega)
  have hhdr : ∀ g ∈ C ++ (X ++ [f]), ∀ x, g.off ≤ x → x < g.off + 40 → t x = m x := by
    intro g hg x hx hx'
    rw [← List.append_assoc] at hg
    rcases List.mem_append.mp hg with hg | hg
    · exact hkeep g hg x hx (by unfold Frame.stop; omega)
    · rw [List.mem_singleton.mp hg] at hx hx'; exact hs x (by omega)
  have hsame : (C ++ X).map (Frame.reread t) = C ++ X := by
    refine (List.map_congr_left fun g hg => ?_).trans (List.map_id _)
    have hg' : g ∈ C ++ (X ++ [f]) := by rw [← List.append_assoc]; exact List.mem_append_left _ hg
    exact (hw.linked.stored g hg').reread (hkeep g hg)
  have hw' := hw.reread hhdr
  rw [← List.append_assoc, List.map_append, hsame, List.map_singleton, List.append_assoc] at hw'
  refine ⟨⟨?_, by rw [hs 0 (by omega)]; exact ho.2⟩, i, c, w,
    hv.congr fun x _ _ => hs x (by omega), ⟨hc.page, hw'.linked.left, hc.layout⟩, hq, hw',
    by simpa using hwq, by simp⟩
  rw [initialized, hs.load (by omega)]
  exact ho.1

/-! ### Opening -/

/-- The page describes no frame, and has never described one. -/
def Blank (s : TransportState) : Prop :=
  s.seqLow = 0 ∧ s.seqHigh = 0 ∧ s.offHead = 0 ∧ s.offTail = 0

/-- An arena that has not been initialised, or not completely. -/
structure Fresh (m : Mem) : Prop where
  closed : initialized m = false
  tag : m 0 ≠ 1
  page : ∃ c n, Committed m c n ∧ Blank c

/-- An arena is all zero at first. -/
theorem fresh_zeros : Fresh fun _ => 0 := by
  have hle : committedPageIdx (fun _ => 0) ≤ 1 := by simp [committedPageIdx, Mem.load_zeros]
  refine ⟨by simp [initialized, Mem.load_zeros], by simp, _, _, ⟨hle, rfl, rfl⟩, ?_⟩
  simp [Blank, committedState, loadState, Mem.load_zeros]

/-- An arena of version 0.2 begins with another byte. -/
theorem backwardCompatibilityUpdateFrom02_wpc {a : Arena} {C : Mem → Prop}
    {Q : Unit → Mem → Prop} (h : m 0 ≠ 1) (hQ : Q () m) :
    (backwardCompatibilityUpdateFrom02 a).wpc C Q m := by
  have htag : m.load 2 0 ≠ 0x0101 := by
    rw [Mem.load_succ]
    intro he
    have hb : (m 0).toNat < 256 := (m 0).toNat_lt
    exact h (UInt8.toNat_inj.mp (show (m 0).toNat = 1 by omega))
  simp only [backwardCompatibilityUpdateFrom02, wpc_bind, wpc_read, if_pos htag, wpc_pure]
  exact hQ

/-- What `a0_transport_lock` keeps of the frames that have not been committed. -/
def unlocked (mode : ArenaMode) (X : List Frame) : List Frame := if mode = .shared then [] else X

theorem unlocked_unlocked (mode : ArenaMode) (X : List Frame) :
    unlocked mode (unlocked mode X) = unlocked mode X := by
  unfold unlocked
  split_ifs <;> rfl

@[simp] theorem unlocked_nil (mode : ArenaMode) : unlocked mode [] = [] := by
  unfold unlocked
  split_ifs <;> rfl

/-- `a0_transport_lock`, in any mode. -/
theorem lock_mode (mode : ArenaMode) (h : Ready m n C X q) :
    (lock mode).wpc (fun t => Logged t n C q) (fun _ t => Ready t n C (unlocked mode X) q) m := by
  by_cases hmode : mode = .shared
  · subst hmode
    exact lock_ready h.logged
  · rw [lock_of_ne hmode, wpc_pure, unlocked, if_neg hmode]
    exact h

theorem lock_committed (mode : ArenaMode) (h : Ready m n C [] q) : Ready ((lock mode).exec m) n C [] q := by
  have hl := post_of_wpc (lock_mode mode h)
  rwa [unlocked_nil] at hl

theorem unlock_committed (mode : ArenaMode) (h : Ready m n C [] q) :
    Ready ((unlock mode).exec m) n C [] q := lock_committed mode h

theorem initMtx_wpc (mode : ArenaMode) :
    (initMtx mode).wpc (Mem.SameOutside 16 24 m) (fun _ => Mem.SameOutside 16 24 m) m := by
  unfold initMtx
  split_ifs
  · exact wpc_mono memset_wpc (fun _ ht => ht) fun _ _ ht => ht.1
  · exact wpc_pure.mpr (.refl _ _ m)

theorem Ready.mtx (h : Ready m n C X q) (hs : Mem.SameOutside 16 24 m t) : Ready t n C X q := by
  have hf : SameFrames m t := fun x hx => hs x (by omega)
  obtain ⟨ho, i, c, w, hv, hc, hq, hw, hwq, he⟩ := h
  exact ⟨ho.sameFrames hf, i, c, w, hv.congr fun x _ _ => hs x (by omega), hc.sameFrames hf, hq,
    hw.sameFrames hf, hwq, he⟩

/-- What is behind the arena does not matter. -/
theorem Ready.beyond {a k : ℕ} (h : Ready m n C X q) (hs : Mem.SameOutside a k m t) (ha : 144 ≤ a) (hn : n ≤ a) :
    Ready t n C X q := by
  have keep : ∀ s fs, Holds m n s fs → Holds t n s fs := by
    rintro s fs ⟨hp, hl, hlay⟩
    refine ⟨hp, hl.congr (fun f hf x _ hx _ => ?_) fun f hf => ?_, hlay⟩
    · exact hs x (by have := hlay.upper f hf; omega)
    · have hup := hlay.upper f (List.dropLast_subset _ hf)
      unfold Frame.stop at hup
      exact hs.load (by omega)
  obtain ⟨⟨hi, htag⟩, i, c, w, hv, hc, hq, hw, hwq, he⟩ := h
  refine ⟨⟨?_, ?_⟩, i, c, w, hv.congr fun x _ _ => hs x (by omega), keep c C hc, hq, keep w _ hw, hwq, he⟩
  · rw [initialized, hs.load (by omega)]
    exact hi
  · rw [hs 0 (by omega)]
    exact htag

/-- `a0_transport_init` of an arena in use, in SHARED mode, also after a death. -/
theorem init_logged {a : Arena} (hmode : a.mode = .shared) (h : Logged m n C q) :
    (init a).wpc (fun t => Logged t n C q) (fun _ t => Ready t n C [] q) m := by
  simp only [init, wpc_bind, unlock_eq_lock, hmode]
  refine backwardCompatibilityUpdateFrom02_wpc h.1.2 (wpc_pure.mpr ?_)
  refine wpc_mono (lock_ready h) (fun _ ht => ht) fun _ t ht => ?_
  simp only [initHeader, wpc_bind, wpc_read, ht.1.1, Bool.not_true, Bool.false_eq_true, if_false]
  exact wpc_pure.mpr (wpc_mono (lock_ready ht.logged) (fun _ hu => hu) fun _ u hu =>
    wpc_pure.mpr hu)

/-- `a0_transport_init` of an arena in use. -/
theorem init_ready {a : Arena} (h : Ready m n C X q) :
    (init a).wpc (fun t => Logged t n C q) (fun _ t => Ready t n C (unlocked a.mode X) q)
      m := by
  simp only [init, wpc_bind, unlock_eq_lock]
  refine backwardCompatibilityUpdateFrom02_wpc h.1.2 ?_
  refine wpc_mono (initMtx_wpc _) (fun t ht => (h.mtx ht).logged) fun _ t ht => ?_
  refine wpc_mono (lock_mode _ (h.mtx ht)) (fun _ ht => ht) fun _ t ht => ?_
  simp only [initHeader, wpc_bind, wpc_read, ht.1.1, Bool.not_true, Bool.false_eq_true, if_false]
  refine wpc_pure.mpr (wpc_mono (lock_mode _ ht) (fun _ hu => hu) fun _ u hu => wpc_pure.mpr ?_)
  rwa [unlocked_unlocked] at hu

theorem Fresh.sameFrames (h : Fresh m) (hs : SameFrames m t) (ht : Committed t c n)
    (hc : Blank c) : Fresh t := by
  refine ⟨?_, by rw [hs 0 (by omega)]; exact h.tag, c, n, ht, hc⟩
  rw [initialized, hs.load_low (by omega)]
  exact h.closed

/-- Locking an arena not in use yet. -/
theorem Fresh.lock {mode : ArenaMode} (h : Fresh m)
    (hmode : mode = .shared ∨ Blank (workingState m)) :
    (lock mode).wpc Fresh
      (fun _ t => Fresh t ∧ ∃ i c w n, View t i c w n ∧ Blank c ∧ Blank w) m := by
  obtain ⟨c, n, hcom, hc⟩ := h.page
  by_cases hs : mode = .shared
  · subst hs
    refine wpc_mono (lock_wpc hcom) (fun t ht => h.sameFrames ht.1 ht.2 hc) fun _ t ht => ?_
    exact ⟨h.sameFrames ht.1 ht.2.committedView hc, _, c, c, n, ht.2, hc, hc⟩
  · rw [lock_of_ne hs, wpc_pure]
    exact ⟨h, _, _, _, _, view_of_le hcom.le, hcom.state ▸ hc, hmode.resolve_left hs⟩

/-- Storing to `magic` and to `version` leaves the arena uninitialised. -/
theorem Fresh.memcpy {b i : ℕ} {bs : List UInt8} (h : Fresh m) (hv : View m i c w n)
    (hc : Blank c) (hb : b + bs.length ≤ 12) (hbs : 1 ∉ bs) :
    (memcpy b bs).wpc Fresh (fun _ t => Fresh t ∧ View t i c w n) m := by
  have step : ∀ t : Mem, Mem.SameOutside b bs.length m t → (∀ x, t x = m x ∨ t x ∈ bs) →
      Fresh t ∧ View t i c w n := by
    intro t hs hm
    have hvt := hv.congr fun x _ _ => hs x (by omega)
    refine ⟨⟨?_, fun h1 => ?_, c, n, hvt.committedView, hc⟩, hvt⟩
    · rw [initialized, hs.load (by omega)]; exact h.closed
    · rcases hm 0 with h0 | h0
      · exact h.tag (h0.symm.trans h1)
      · exact hbs (h1 ▸ h0)
  exact wpc_mono (wpc_and memcpy_wpc memcpy_mem_wpc) (fun t ht => (step t ht.1 ht.2).1)
    fun _ t ht => step t ht.1.1 ht.2

/-- The page of an arena just initialised. -/
def blankState : TransportState := ⟨0, 0, 0, 0, 144⟩

theorem holds_blankState (hn : n < 2 ^ 62) : Holds m n blankState [] :=
  ⟨⟨rfl, .inr ⟨rfl, rfl, rfl⟩, by simp, rfl, rfl, rfl, by simp [blankState]⟩, .nil m, .nil hn⟩

theorem Blank.eq (h : Blank s) : { s with highWaterMark := 144 } = blankState := by
  obtain ⟨h₁, h₂, h₃, h₄⟩ := h
  simp [blankState, h₁, h₂, h₃, h₄]

/-- The stores to both high water marks. -/
theorem View.store_marks {i : ℕ} (h : View m i c w n) (hc : Blank c) (hw : Blank w) :
    ∃ c', Blank c' ∧ Committed (m.store 8 80 144) c' n ∧
      View ((m.store 8 80 144).store 8 120 144) i blankState blankState n := by
  rcases statePage_lnot h.le with ⟨h₁, h₂⟩ | ⟨h₁, h₂⟩
  · have hv := h.store_committedMark (v := 144) (by norm_num)
    have hv' := hv.store_highWaterMark (v := 144) (by norm_num)
    rw [h₁] at hv hv'
    rw [h₂, hc.eq, hw.eq] at hv'
    exact ⟨{ c with highWaterMark := 144 }, hc, hv.committedView, hv'⟩
  · have hv := h.store_highWaterMark (v := 144) (by norm_num)
    have hv' := hv.store_committedMark (v := 144) (by norm_num)
    rw [h₂] at hv hv'
    rw [h₁, hc.eq, hw.eq] at hv'
    exact ⟨_, hc, hv.committedView, hv'⟩

/-- The stores of `a0_transport_init` to the header of an arena not in use yet: the
last of them declares the arena initialised. -/
theorem Fresh.initHeader {size i : ℕ} (h : Fresh m) (hn : size < 2 ^ 62) (hv : View m i c w n)
    (hc : Blank c) (hw : Blank w) :
    (initHeader size).wpc (fun t => Fresh t ∨ Logged t size [] 0)
      (fun _ t => Ready t size [] [] 0) m := by
  simp only [Transport.initHeader, wpc_bind, wpc_read, h.closed, Bool.not_false, if_true]
  refine wpc_mono (h.memcpy hv hc (by decide) (by decide)) (fun _ hu => .inl hu) ?_
  rintro _ m ⟨h, hv⟩
  refine wpc_mono (h.memcpy hv hc (by decide) (by decide)) (fun _ hu => .inl hu) ?_
  rintro _ m ⟨h, hv⟩
  have hv₁ := hv.store_size (k := size) (by omega)
  have hs₁ : SameFrames m (m.store 8 136 size) := sameFrames_store (by omega)
  obtain ⟨c', hc', hcom', hv₃⟩ := hv₁.store_marks hc hw
  have hs₂ := hs₁.trans (sameFrames_store (k := 8) (a := 80) (v := 144) (by omega))
  have hs₃ := hs₂.trans (sameFrames_store (k := 8) (a := 120) (v := 144) (by omega))
  have hready : Ready ((((m.store 8 136 size).store 8 80 144).store 8 120 144).store 1 12 1)
      size [] [] 0 := by
    refine ready_of_same ⟨?_, ?_⟩ (hv₃.congr fun x _ _ => Mem.store_of_disjoint (by omega))
      (holds_blankState hn) rfl
    · rw [initialized, Mem.load_store_of_lt (by norm_num)]; rfl
    · rw [Mem.store_of_disjoint (by omega), hs₃ 0 (by omega)]; exact h.tag
  simp only [storeWord, wpc_write, workspaceOff_eq]
  exact ⟨.inl (h.sameFrames hs₁ hv₁.committedView hc), .inl (h.sameFrames hs₂ hcom' hc'),
    .inl (h.sameFrames hs₃ hv₃.committedView ⟨rfl, rfl, rfl, rfl⟩), .inr hready.logged, hready⟩

/-- `a0_transport_init` of an arena not in use yet. -/
theorem init_fresh {a : Arena} (hmode : a.mode = .shared ∨ Blank (workingState m))
    (hn : a.size < 2 ^ 62) (h : Fresh m) :
    (init a).wpc (fun t => Fresh t ∨ Logged t a.size [] 0)
      (fun _ t => Ready t a.size [] [] 0) m := by
  have hmtx : ∀ t : Mem, Mem.SameOutside 16 24 m t → Fresh t ∧ workingState t = workingState m := by
    intro t hs
    obtain ⟨c, n, hcom, hc⟩ := h.page
    have hv := (view_of_le hcom.le).congr fun x _ _ => hs x (by omega)
    refine ⟨h.sameFrames (fun x hx => hs x (by omega)) hv.committedView (hcom.state ▸ hc),
      hv.workingState_eq⟩
  simp only [init, wpc_bind, unlock_eq_lock]
  refine backwardCompatibilityUpdateFrom02_wpc h.tag ?_
  refine wpc_mono (initMtx_wpc _) (fun t ht => .inl (hmtx t ht).1) fun _ t ht => ?_
  obtain ⟨hf, hw⟩ := hmtx t ht
  refine wpc_mono (hf.lock (hw ▸ hmode)) (fun _ ht => .inl ht) ?_
  rintro _ t ⟨hf, i, c, w, n, hv, hc, hw⟩
  refine wpc_mono (hf.initHeader hn hv hc hw) (fun _ ht => ht) fun _ t ht => ?_
  refine wpc_mono (lock_mode _ ht) (fun _ hu => .inr hu) fun _ u hu => wpc_pure.mpr ?_
  rwa [unlocked_nil] at hu

end Transport

end AlephZero
