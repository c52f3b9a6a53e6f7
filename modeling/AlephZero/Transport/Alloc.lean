import AlephZero.Transport.Layout

/-!
# Allocating

The specification of `a0_transport_alloc`: the eviction loop, and the stores
that put the new frame behind the newest one.

## What is proved

* `evict_wpc` — the loop is over within its fuel, and removes the `evictCount`
  oldest frames, one commit for each.
* `slotInit_wpc`, `maybeSetHead_wpc`, `updateTail_wpc`,
  `updateHighWaterMark_wpc` — the stores, one function at a time.
* `place_wpc` — together they leave `placeState`, and touch nothing behind the
  header but the new frame's header and the newest frame's `next_off`.
-/

namespace AlephZero

open ByteMem StoreProg Prog

namespace Transport

variable {m m' : Mem} {i n : ℕ} {c w : TransportState} {fs : List Frame} {off size : ℕ}

/-! ### The eviction loop -/

/-- How many of the oldest frames are evicted for the slot `[off, off + size)`. -/
def evictCount (off size : ℕ) : List Frame → ℕ
  | [] => 0
  | f :: fs => if Evicts off size (f :: fs) then evictCount off size fs + 1 else 0

theorem evictCount_le : evictCount off size fs ≤ fs.length := by
  induction fs with
  | nil => simp [evictCount]
  | cons f fs ih => simp only [evictCount, List.length_cons]; split_ifs <;> omega

/-- Nothing is left to evict. -/
theorem not_evicts_drop : ¬ Evicts off size (fs.drop (evictCount off size fs)) := by
  induction fs with
  | nil => simp [Evicts]
  | cons f fs ih =>
    rw [evictCount]
    split_ifs with h
    · exact ih
    · exact h

/-- What the eviction loop may have committed: nothing, or the frames that are
left after some of its rounds. -/
def Evicted (n : ℕ) (c w : TransportState) (fs : List Frame) (k : ℕ) (t : Mem) : Prop :=
  Committed t c n ∨ ∃ j w', 0 < j ∧ j ≤ k ∧ Committed t w' n ∧ PageOf w' (fs.drop j) ∧
    w'.seqHigh = w.seqHigh

/-- `a0_transport_evict`. -/
theorem evict_wpc (hv : View m i c w n) (h : Holds m n w fs) (hsize : off + size < 2 ^ 64)
    {fuel : ℕ} (hfuel : fs.length < fuel) :
    (evict off size fuel).wpc
      (fun t => SameFrames m t ∧ Evicted n c w fs (evictCount off size fs) t)
      (fun r t => r = true ∧ SameFrames m t ∧ ∃ i' c' w', View t i' c' w' n ∧
        Holds t n w' (fs.drop (evictCount off size fs)) ∧ w'.seqHigh = w.seqHigh ∧
        (evictCount off size fs = 0 ∧ t = m ∧ c' = c ∨ 0 < evictCount off size fs ∧ c' = w')) m := by
  induction fs generalizing fuel m i c w with
  | nil =>
    obtain ⟨fuel, rfl⟩ := Nat.exists_eq_succ_of_ne_zero (by omega : fuel ≠ 0)
    have hno : slotEvicts m off size = false := by
      rw [Bool.eq_false_iff, ne_eq, slotEvicts_iff hv h hsize]
      exact id
    simp only [evict, wpc_bind, wpc_read, hno, Bool.false_eq_true, if_false, wpc_pure]
    exact ⟨trivial, .refl m, i, c, w, hv, h, rfl, .inl ⟨rfl, trivial, rfl⟩⟩
  | cons f fs ih =>
    obtain ⟨fuel, rfl⟩ := Nat.exists_eq_succ_of_ne_zero (by omega : fuel ≠ 0)
    have hiff := slotEvicts_iff hv h hsize
    rw [evict, wpc_bind, wpc_read]
    by_cases he : Evicts off size (f :: fs)
    · have hcount : evictCount off size (f :: fs) = evictCount off size fs + 1 := by
        rw [evictCount, if_pos he]
      obtain ⟨hr, hhigh⟩ := h.removeHead
      have hhead : 144 ≤ w.offHead := by rw [h.head_off]; exact h.layout.lower f (by simp)
      have htail : 144 ≤ w.offTail := by
        rw [h.page.tail]
        obtain ⟨g, hg⟩ : ∃ g, (f :: fs).getLast? = some g :=
          ⟨_, List.getLast?_eq_getLast_of_ne_nil (by simp)⟩
        rw [hg]
        exact h.layout.lower g (List.mem_of_getLast? hg)
      have hself : frameOff m w.offHead = w.offHead := by
        rw [h.head_off]; exact (h.linked.stored f (by simp)).off
      simp only [hiff.mpr he, if_true, wpc_bind, wpc_read, hv.workingPage_eq]
      refine wpc_mono (removeHead_wpc hv hhead htail hself) (fun t ht => ?_) fun _ t ht => ?_
      · refine ⟨ht.1, ht.2.imp id fun hc => ⟨1, _, one_pos, by omega, hc, hr.page, hhigh⟩⟩
      · obtain ⟨hs, hvt⟩ := ht
        refine wpc_mono (ih hvt (hr.sameFrames hs) (by simpa using hfuel)) (fun u hu => ?_)
          fun r u hu => ?_
        · refine ⟨hs.trans hu.1, ?_⟩
          rcases hu.2 with hc | ⟨j, w', hj, hjk, hc, hp, hq⟩
          · exact .inr ⟨1, _, one_pos, by omega, hc, hr.page, hhigh⟩
          · exact .inr ⟨j + 1, w', by omega, by omega, hc, hp, hq.trans hhigh⟩
        · obtain ⟨hrt, hs', i', c', w', hv', hh', hq, hcase⟩ := hu
          rw [hcount]
          refine ⟨hrt, hs.trans hs', i', c', w', hv', hh', hq.trans hhigh, .inr ⟨by omega, ?_⟩⟩
          rcases hcase with ⟨hz, rfl, rfl⟩ | ⟨-, hc⟩
          · -- no further round: both pages are the one just committed
            rw [← hv'.working, ← hvt.working, ← hv'.workingPage_eq, hvt.workingPage_eq]
          · exact hc
    · have hcount : evictCount off size (f :: fs) = 0 := by rw [evictCount, if_neg he]
      have hno : slotEvicts m off size = false := by
        rw [Bool.eq_false_iff, ne_eq, hiff]; exact he
      simp only [hno, Bool.false_eq_true, if_false, wpc_pure, hcount, List.drop_zero]
      exact ⟨trivial, .refl m, i, c, w, hv, h, rfl, .inl ⟨trivial, trivial, rfl⟩⟩

/-! ### The stores of a placement -/

/-- Where `SameFrames` compares them, `m'` differs from `m` at most in the header of
a frame at `off` and in the `next_off` of a frame at `tail`. -/
def PlacedAt (off tail : ℕ) (m m' : Mem) : Prop :=
  ∀ x, x < 16 ∨ 144 ≤ x → x < off ∨ off + 40 ≤ x → x < tail + 16 ∨ tail + 24 ≤ x → m' x = m x

theorem PlacedAt.trans {tail : ℕ} {u : Mem} (h : PlacedAt off tail m m')
    (h' : PlacedAt off tail m' u) : PlacedAt off tail m u :=
  fun x h₁ h₂ h₃ => (h' x h₁ h₂ h₃).trans (h x h₁ h₂ h₃)

theorem SameFrames.placedAt {tail : ℕ} (h : SameFrames m m') : PlacedAt off tail m m' :=
  fun x hx _ _ => h x hx

theorem placedAt_store_header {tail k a v : ℕ} (h : off ≤ a) (h' : a + k ≤ off + 40) :
    PlacedAt off tail m (m.store k a v) :=
  fun _ _ _ _ => Mem.store_of_disjoint (by omega)

/-- The header of the frame at `off`, as far as `a0_transport_slot_init` fills
it in. -/
structure HeaderAt (m : Mem) (a q k : ℕ) : Prop where
  seq : frameSeq m a = q
  off : frameOff m a = a
  size : frameDataSize m a = k

theorem HeaderAt.sameFrames {seq : ℕ} (h : HeaderAt m off seq size) (ho : 144 ≤ off)
    (hs : SameFrames m m') : HeaderAt m' off seq size :=
  ⟨(hs.load ho).trans h.seq, (hs.load (by omega)).trans h.off, (hs.load (by omega)).trans h.size⟩

/-- The page `a0_transport_slot_init` leaves. -/
def slotInitState (w : TransportState) : TransportState :=
  { w with
    seqHigh := w.seqHigh + 1
    seqLow := if w.seqLow = 0 then w.seqHigh + 1 else w.seqLow }

theorem slotInit_wpc (hv : View m i c w n) (ho : 144 ≤ off) (hoff : off < 2 ^ 64)
    (hsize : size < 2 ^ 64) (hq : w.seqHigh + 1 < 2 ^ 64) (tail : ℕ) :
    (slotInit (statePage (lnot i)) off off size).wpc
      (fun t => PlacedAt off tail m t ∧ Committed t c n)
      (fun _ t => PlacedAt off tail m t ∧ View t i c (slotInitState w) n ∧
        HeaderAt t off (w.seqHigh + 1) size) m := by
  have hi := statePage_lnot hv.le
  have hwrap : wrap (w.seqHigh + 1) = w.seqHigh + 1 := wrap_of_lt hq
  have outside : ∀ {t : Mem}, Mem.SameOutside off 40 m t →
      PlacedAt off tail m t ∧ View t i c w n := by
    intro t ht
    exact ⟨fun x _ hx _ => ht x hx, hv.congr fun x _ _ => ht x (by omega)⟩
  simp only [slotInit, storeWord]
  rw [wpc_bind]
  refine wpc_mono memset_wpc (fun t ht => ⟨(outside ht).1, (outside ht).2.committedView⟩)
    fun _ t ht => ?_
  obtain ⟨hp₀, hv₀⟩ := outside ht.1
  have hv₁ := hv₀.store_seqHigh hq
  have hp₁ := hp₀.trans (u := t.store 8 (statePage (lnot i) + 8) (w.seqHigh + 1))
    (sameFrames_store (by omega)).placedAt
  have hv₂ := hv₁.store_frame (k := 8) (a := off) (v := w.seqHigh + 1) ho
  have hp₂ := hp₁.trans (placedAt_store_header (a := off) (k := 8) (v := w.seqHigh + 1)
    le_rfl (by omega))
  simp only [wpc_bind, wpc_read, wpc_write, hv₀.working, hwrap]
  refine ⟨⟨hp₁, hv₁.committedView⟩, ⟨hp₂, hv₂.committedView⟩, ?_⟩
  -- the last three stores, whether or not `seq_low` was set
  have finish : ∀ {u : Mem}, PlacedAt off tail m u → View u i c (slotInitState w) n →
      frameSeq u off = w.seqHigh + 1 →
      ((Prog.write fun m => m.store 8 (off + 8) off) >>= fun _ =>
        (Prog.write fun m => m.store 8 (off + 16) 0) >>= fun _ =>
          Prog.write fun m => m.store 8 (off + 32) size).wpc
        (fun t => PlacedAt off tail m t ∧ Committed t c n)
        (fun _ t => PlacedAt off tail m t ∧ View t i c (slotInitState w) n ∧
          HeaderAt t off (w.seqHigh + 1) size) u := by
    intro u hp hv hseq
    have hv₁ := hv.store_frame (k := 8) (a := off + 8) (v := off) (by omega)
    have hp₁ := hp.trans (placedAt_store_header (a := off + 8) (k := 8) (v := off)
      (by omega) (by omega))
    have hv₂ := hv₁.store_frame (k := 8) (a := off + 16) (v := 0) (by omega)
    have hp₂ := hp₁.trans (placedAt_store_header (a := off + 16) (k := 8) (v := 0)
      (by omega) (by omega))
    have hv₃ := hv₂.store_frame (k := 8) (a := off + 32) (v := size) (by omega)
    have hp₃ := hp₂.trans (placedAt_store_header (a := off + 32) (k := 8) (v := size)
      (by omega) (by omega))
    simp only [wpc_bind, wpc_write]
    refine ⟨⟨hp₁, hv₁.committedView⟩, ⟨hp₂, hv₂.committedView⟩, ⟨hp₃, hv₃.committedView⟩,
      hp₃, hv₃, ?_, ?_, ?_⟩
    · rw [← hseq]
      simp (disch := omega) only [frameSeq, Mem.load_store_of_disjoint]
    · simp (disch := omega) only [frameOff, Mem.load_store_of_disjoint, load_store_word hoff]
    · simp only [frameDataSize, load_store_word hsize]
  have hseq₂ : frameSeq ((t.store 8 (statePage (lnot i) + 8) (w.seqHigh + 1)).store 8 off
      (w.seqHigh + 1)) off = w.seqHigh + 1 := load_store_word hq
  split_ifs with hlow
  · have hv₃ := hv₂.store_seqLow hq
    have hp₃ := hp₂.trans (u := ((t.store 8 (statePage (lnot i) + 8) (w.seqHigh + 1)).store 8 off
      (w.seqHigh + 1)).store 8 (statePage (lnot i)) (w.seqHigh + 1))
      (sameFrames_store (by omega)).placedAt
    rw [wpc_bind, wpc_write]
    refine ⟨⟨hp₃, hv₃.committedView⟩, ?_⟩
    have := finish hp₃ (by rw [slotInitState, if_pos hlow]; exact hv₃) (by
      rw [frameSeq, Mem.load_store_of_disjoint (by omega)]; exact hseq₂)
    simpa only [wpc_bind] using this
  · have := finish hp₂ (by rw [slotInitState, if_neg hlow]; exact hv₂) hseq₂
    simpa only [wpc_pure, wpc_bind] using this

theorem maybeSetHead_wpc (hv : View m i c w n) (hself : frameOff m off = off) (hoff : off < 2 ^ 64) :
    (maybeSetHead (statePage (lnot i)) off).wpc
      (fun t => SameFrames m t ∧ Committed t c n)
      (fun _ t => SameFrames m t ∧
        View t i c { w with offHead := if w.offHead = 0 then off else w.offHead } n) m := by
  have hi := statePage_lnot hv.le
  simp only [maybeSetHead, storeWord, wpc_bind, wpc_read, hv.working]
  split_ifs with h0
  · have hv₁ := hv.store_offHead hoff
    have hs₁ : SameFrames m (m.store 8 (statePage (lnot i) + 16) off) := sameFrames_store (by omega)
    simp only [wpc_bind, wpc_read, wpc_write, hself]
    exact ⟨⟨hs₁, hv₁.committedView⟩, hs₁, hv₁⟩
  · rw [wpc_pure]
    exact ⟨.refl m, hv⟩

theorem updateTail_wpc {seq : ℕ} (hv : View m i c w n) (hh : HeaderAt m off seq size)
    (ho : 144 ≤ off) (hoff : off < 2 ^ 64)
    (htail : w.offTail = 0 ∨ 144 ≤ w.offTail ∧ (w.offTail + 40 ≤ off ∨ off + 40 ≤ w.offTail)) :
    (updateTail (statePage (lnot i)) off).wpc
      (fun t => PlacedAt off w.offTail m t ∧ Committed t c n)
      (fun _ t => PlacedAt off w.offTail m t ∧ View t i c { w with offTail := off } n ∧
        HeaderAt t off seq size ∧
        (w.offTail ≠ 0 → frameNextOff t w.offTail = off ∧ framePrevOff t off = w.offTail)) m := by
  have hi := statePage_lnot hv.le
  simp only [updateTail, storeWord, wpc_bind, wpc_read, hv.working, hh.off]
  split_ifs with h0
  · have h144 := htail.resolve_left h0
    have hv₁ := hv.store_frame (k := 8) (a := w.offTail + 16) (v := off) (by omega)
    have hp₁ : PlacedAt off w.offTail m (m.store 8 (w.offTail + 16) off) :=
      fun _ _ _ _ => Mem.store_of_disjoint (by omega)
    have hv₂ := hv₁.store_frame (k := 8) (a := off + 24) (v := w.offTail) (by omega)
    have hp₂ := hp₁.trans (placedAt_store_header (a := off + 24) (k := 8) (v := w.offTail)
      (by omega) (by omega))
    have hv₃ := hv₂.store_offTail hoff
    have hs₃ : SameFrames _ (Mem.store _ 8 (statePage (lnot i) + 24) off) :=
      sameFrames_store (m := (m.store 8 (w.offTail + 16) off).store 8 (off + 24) w.offTail)
        (k := 8) (a := statePage (lnot i) + 24) (v := off) (by omega)
    have hp₃ := hp₂.trans (hs₃.placedAt)
    simp only [wpc_bind, wpc_write]
    refine ⟨⟨hp₁, hv₁.committedView⟩, ⟨hp₂, hv₂.committedView⟩, ⟨hp₃, hv₃.committedView⟩,
      hp₃, hv₃, ⟨?_, ?_, ?_⟩, fun _ => ⟨?_, ?_⟩⟩
    · rw [← hh.seq]
      simp (disch := omega) only [frameSeq, Mem.load_store_of_disjoint]
    · refine Eq.trans ?_ hh.off
      simp (disch := omega) only [frameOff, Mem.load_store_of_disjoint]
    · rw [← hh.size]
      simp (disch := omega) only [frameDataSize, Mem.load_store_of_disjoint]
    · simp (disch := omega) only [frameNextOff, Mem.load_store_of_disjoint, load_store_word hoff]
    · simp (disch := omega) only [framePrevOff, Mem.load_store_of_disjoint,
        load_store_word hv.working_lt.2.2.2.1]
  · have hv₁ := hv.store_offTail hoff
    have hs₁ : SameFrames m (m.store 8 (statePage (lnot i) + 24) off) := sameFrames_store (by omega)
    simp only [wpc_write]
    exact ⟨⟨hs₁.placedAt, hv₁.committedView⟩, hs₁.placedAt, hv₁, hh.sameFrames ho hs₁,
      fun h => absurd h h0⟩

theorem updateHighWaterMark_wpc {seq : ℕ} (hv : View m i c w n) (hh : HeaderAt m off seq size)
    (hfit : off + 40 + size < 2 ^ 64) :
    (updateHighWaterMark (statePage (lnot i)) off).wpc
      (fun t => SameFrames m t ∧ Committed t c n)
      (fun _ t => SameFrames m t ∧
        View t i c { w with highWaterMark := max w.highWaterMark (off + 40 + size) } n) m := by
  have hi := statePage_lnot hv.le
  have hend : frameEnd m off = off + 40 + size := by
    rw [frameEnd, hh.size, wrap_of_lt (n := off + 40) (by omega), wrap_of_lt (by omega)]
  simp only [updateHighWaterMark, storeWord, wpc_bind, wpc_read, hv.working, hh.off, hend]
  split_ifs with hlt
  · have hv₁ := hv.store_highWaterMark hfit
    have hs₁ : SameFrames m (m.store 8 (statePage (lnot i) + 32) (off + 40 + size)) :=
      sameFrames_store (by omega)
    rw [wpc_write, max_eq_right (by omega)]
    exact ⟨⟨hs₁, hv₁.committedView⟩, hs₁, hv₁⟩
  · rw [wpc_pure, max_eq_left (by omega)]
    exact ⟨.refl m, hv⟩

/-- The four functions that place a frame, once the slot is free. -/
theorem place_wpc (hv : View m i c w n) (ho : 144 ≤ off) (hfit : off + 40 + size < 2 ^ 64)
    (hq : w.seqHigh + 1 < 2 ^ 64)
    (htail : w.offTail = 0 ∨ 144 ≤ w.offTail ∧ (w.offTail + 40 ≤ off ∨ off + 40 ≤ w.offTail)) :
    (slotInit (statePage (lnot i)) off off size >>= fun _ =>
      maybeSetHead (statePage (lnot i)) off >>= fun _ =>
      updateTail (statePage (lnot i)) off >>= fun _ =>
      updateHighWaterMark (statePage (lnot i)) off).wpc
      (fun t => PlacedAt off w.offTail m t ∧ Committed t c n)
      (fun _ t => PlacedAt off w.offTail m t ∧
        View t i c (placeState w ⟨w.seqHigh + 1, off, m.loadBytes (off + 40) size⟩) n ∧
        HeaderAt t off (w.seqHigh + 1) size ∧
        (w.offTail ≠ 0 → frameNextOff t w.offTail = off ∧ framePrevOff t off = w.offTail)) m := by
  have hoff : off < 2 ^ 64 := by omega
  simp only [wpc_bind]
  refine wpc_mono (slotInit_wpc hv ho hoff (by omega) hq w.offTail) (fun _ h => h) ?_
  rintro _ t₁ ⟨hp₁, hv₁, hh₁⟩
  refine wpc_mono (maybeSetHead_wpc hv₁ hh₁.off hoff)
    (fun t ht => ⟨hp₁.trans ht.1.placedAt, ht.2⟩) ?_
  rintro _ t₂ ⟨hs₂, hv₂⟩
  have hp₂ : PlacedAt off w.offTail m t₂ := hp₁.trans hs₂.placedAt
  have hh₂ := hh₁.sameFrames ho hs₂
  refine wpc_mono (updateTail_wpc hv₂ hh₂ ho hoff htail)
    (fun t ht => ⟨hp₂.trans ht.1, ht.2⟩) ?_
  rintro _ t₃ ⟨hp₃, hv₃, hh₃, hlink⟩
  have hp₃ := hp₂.trans hp₃
  refine wpc_mono (updateHighWaterMark_wpc hv₃ hh₃ hfit)
    (fun t ht => ⟨hp₃.trans ht.1.placedAt, ht.2⟩) ?_
  rintro _ t₄ ⟨hs₄, hv₄⟩
  refine ⟨hp₃.trans hs₄.placedAt, ?_, hh₃.sameFrames ho hs₄, fun h0 => ?_⟩
  · simp only [placeState, Frame.stop, Mem.length_loadBytes]
    exact hv₄
  · have h144 := htail.resolve_left h0
    obtain ⟨hn, hpv⟩ := hlink h0
    exact ⟨(hs₄.load (by omega)).trans hn, (hs₄.load (by omega)).trans hpv⟩

/-! ### The list after a placement -/

/-- The frames already there survive a placement: only the newest one's
`next_off` is stored to. -/
theorem Linked.placedAt {f : Frame} (h : Linked m fs) (hl : Layout n (fs ++ [f]))
    (hp : PlacedAt f.off ((fs.getLast?.map Frame.off).getD 0) m m') : Linked m' fs := by
  have hdis := List.pairwise_append.mp hl.disjoint
  have hnew : ∀ g ∈ fs, g.stop ≤ f.off ∨ f.off + 40 ≤ g.off := fun g hg => by
    have := hdis.2.2 g hg f (by simp)
    unfold Frame.stop at this ⊢; omega
  have hlo : ∀ g ∈ fs, 144 ≤ g.off := fun g hg => hl.lower g (by simp [hg])
  rcases List.eq_nil_or_concat fs with rfl | ⟨ys, z, rfl⟩
  · exact .nil m'
  · rw [List.concat_eq_append] at *
    simp only [List.getLast?_concat, Option.map_some, Option.getD_some] at hp
    have hz : ∀ g ∈ ys, g.stop ≤ z.off ∨ z.stop ≤ g.off := fun g hg =>
      (List.pairwise_append.mp hdis.1).2.2 g hg z (by simp)
    refine h.congr (fun g hg x hx hx' hnext => ?_) fun g hg => ?_
    · have h₁ := hnew g hg
      have h₂ := hlo g hg
      refine hp x (by omega) (by omega) ?_
      rcases List.mem_append.mp hg with hg | hg
      · have h₃ := hz g hg
        unfold Frame.stop at h₃ hx'; omega
      · rw [List.mem_singleton.mp hg] at hnext; exact hnext
    · rw [List.dropLast_concat] at hg
      have h₁ := hnew g (by simp [hg])
      have h₂ := hlo g (by simp [hg])
      have h₃ := hz g hg
      unfold Frame.stop at h₁ h₃
      exact Mem.load_congr fun x _ _ => hp x (by omega) (by omega) (by omega)

/-- The list with the new frame at its end. -/
theorem Holds.place {f : Frame} (h : Holds m n w fs) (hl : Layout n (fs ++ [f]))
    (hp : PlacedAt f.off w.offTail m m') (hf : f.In m')
    (hseq : f.seq = w.seqHigh + 1) (hfits : w.seqHigh + 2 < 2 ^ 64)
    (hlink : w.offTail ≠ 0 → frameNextOff m' w.offTail = f.off ∧ framePrevOff m' f.off = w.offTail) :
    Holds m' n (placeState w f) (fs ++ [f]) := by
  have hlo : ∀ g ∈ fs, 144 ≤ g.off := fun g hg => hl.lower g (by simp [hg])
  have hold : Linked m' fs := h.linked.placedAt hl (by rw [← h.page.tail]; exact hp)
  refine ⟨h.page.snoc hlo (hl.lower f (by simp)) hseq hfits, ⟨?_, ?_⟩, hl⟩
  · intro g hg
    rcases List.mem_append.mp hg with hg | hg
    · exact hold.stored g hg
    · rw [List.mem_singleton.mp hg]; exact hf
  · refine List.isChain_append.mpr ⟨hold.links, .singleton f, fun g hg g' hg' => ?_⟩
    obtain rfl : f = g' := by simpa using hg'
    have htail : w.offTail = g.off := by
      rw [h.page.tail, Option.mem_def.mp hg]; rfl
    have := hlo g (List.mem_of_getLast? hg)
    rw [← htail]
    exact hlink (by omega)

end Transport

end AlephZero
