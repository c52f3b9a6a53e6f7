import AlephZero.Transport.Pages
import AlephZero.Machine.IntervalRing
import Mathlib.Data.List.Chain

/-!
# The circular log

What a state page describes: a list of frames, oldest first, that occupy
intervals of the arena around a ring (`IntervalRing.Ring`, which starts over
from the workspace offset 144), each stored at its offset and linked to its
neighbours. `Holds m n s fs` says that page `s` of an arena of size `n` describes
the frames `fs` in memory `m`; it is the invariant everything about the transport
rests on. `framesOf` reads the frames of a page back by following `next_off`.

## What is proved

* `framesOf_eq` — a page describes one list, the one found by following
  `next_off` from `off_head`.
* `Holds.congr` — the list depends on the frames' own bytes only, and not on the
  `next_off` of the newest.
* `Holds.removeHead`, `Holds.snoc`, `Holds.clear` — what the page and the list
  become when the oldest frame is removed, a frame is placed, and the log is
  cleared.
* `slotEvicts_iff`, `findSlot_eq` — the code's tests, on the list.
-/

namespace AlephZero

open ByteMem IntervalRing

namespace Transport

/-- A frame: its sequence number, its offset and its data. -/
@[ext]
structure Frame where
  /-- `hdr.seq`. -/
  seq : ℕ
  /-- `hdr.off`. -/
  off : ℕ
  /-- `data`. -/
  data : List UInt8
  deriving DecidableEq

/-- The end of a frame. -/
def Frame.stop (f : Frame) : ℕ := f.off + 40 + f.data.length

theorem Frame.off_lt_stop (f : Frame) : f.off < f.stop := by unfold Frame.stop; omega

/-- A frame is stored in a memory at its offset. -/
structure Frame.In (f : Frame) (m : Mem) : Prop where
  seq : frameSeq m f.off = f.seq
  off : frameOff m f.off = f.off
  size : frameDataSize m f.off = f.data.length
  data : m.loadBytes (f.off + 40) f.data.length = f.data

/-- Frames are stored in a memory, each linked to its neighbours. -/
structure Linked (m : Mem) (fs : List Frame) : Prop where
  stored : ∀ f ∈ fs, f.In m
  links : fs.IsChain fun f g => frameNextOff m f.off = g.off ∧ framePrevOff m g.off = f.off

/-- Frames have their place in an arena of size `n`. -/
structure Layout (n : ℕ) (fs : List Frame) : Prop where
  ring : Ring Frame.off Frame.stop 144 fs
  lower : ∀ f ∈ fs, 144 ≤ f.off
  upper : ∀ f ∈ fs, f.stop ≤ n
  aligned : ∀ f ∈ fs, f.off % 16 = 0
  size : n < 2 ^ 62

/-- The words of a page agree with a list of frames. -/
structure PageOf (s : TransportState) (fs : List Frame) : Prop where
  seqs : fs.map Frame.seq = List.range' s.seqLow fs.length
  high : s.seqLow + fs.length = s.seqHigh + 1 ∨ fs = [] ∧ s.seqLow = 0 ∧ s.seqHigh = 0
  pos : fs ≠ [] → 1 ≤ s.seqLow
  head : s.offHead = (fs.head?.map Frame.off).getD 0
  tail : s.offTail = (fs.getLast?.map Frame.off).getD 0
  mark : s.highWaterMark = maxHi Frame.stop 144 fs
  fits : s.seqHigh + 1 < 2 ^ 64

/-- Page `s` of an arena of size `n` describes the frames `fs` in memory `m`. -/
structure Holds (m : Mem) (n : ℕ) (s : TransportState) (fs : List Frame) : Prop where
  page : PageOf s fs
  linked : Linked m fs
  layout : Layout n fs

variable {m m' : Mem} {n : ℕ} {s : TransportState} {fs : List Frame} {f g : Frame}

/-! ### Reading the frames of a page -/

/-- The `k` frames found from `off` by following `next_off`. -/
def walk (m : Mem) : ℕ → ℕ → List Frame
  | 0, _ => []
  | k + 1, off => ⟨frameSeq m off, off, frameData m off⟩ :: walk m k (frameNextOff m off)

/-- The frames a page describes, from `off_head` to `seq_high`. -/
def framesOf (m : Mem) (s : TransportState) : List Frame :=
  if s.empty then [] else walk m (s.seqHigh + 1 - s.seqLow) s.offHead

/-- The log a page describes: the sequence numbers and the data of its frames. -/
def logOf (m : Mem) (s : TransportState) : List (ℕ × List UInt8) :=
  (framesOf m s).map fun f => (f.seq, f.data)

theorem Frame.In.eq (h : f.In m) : (⟨frameSeq m f.off, f.off, frameData m f.off⟩ : Frame) = f := by
  ext1
  · exact h.seq
  · rfl
  · simp only [frameData, h.size, h.data]

theorem walk_eq (h : Linked m (f :: fs)) : walk m (f :: fs).length f.off = f :: fs := by
  induction fs generalizing f with
  | nil => simp [walk, (h.stored f (by simp)).eq]
  | cons g fs ih =>
    obtain ⟨⟨hn, -⟩, hrest⟩ := List.isChain_cons_cons.mp h.links
    have hg : Linked m (g :: fs) := ⟨fun x hx => h.stored x (by simp [hx]), hrest⟩
    rw [List.length_cons, walk, hn, ih hg, (h.stored f (by simp)).eq]

theorem PageOf.empty_iff (h : PageOf s fs) : s.empty = true ↔ fs = [] := by
  simp only [TransportState.empty, Bool.or_eq_true, decide_eq_true_eq]
  constructor
  · intro he
    by_contra hne
    have hp := h.pos hne
    have hl := List.length_pos_iff.mpr hne
    rcases h.high with hh | hh
    · omega
    · exact hne hh.1
  · rintro rfl
    rcases h.high with hh | hh
    · simp only [List.length_nil] at hh; omega
    · omega

/-- The code finds the frames a page describes. -/
theorem framesOf_eq (h : Holds m n s fs) : framesOf m s = fs := by
  unfold framesOf
  split_ifs with he
  · exact (h.page.empty_iff.mp he).symm
  · cases fs with
    | nil => exact absurd (h.page.empty_iff.mpr rfl) he
    | cons f fs =>
      have hk : s.seqHigh + 1 - s.seqLow = (f :: fs).length := by
        rcases h.page.high with hh | hh
        · omega
        · simp at hh
      have hoff : s.offHead = f.off := by simpa using h.page.head
      rw [hk, hoff, walk_eq h.linked]

theorem logOf_eq (h : Holds m n s fs) : logOf m s = fs.map fun f => (f.seq, f.data) := by
  rw [logOf, framesOf_eq h]

/-! ### Parts of a list of frames -/

theorem Linked.nil (m : Mem) : Linked m [] := ⟨by simp, .nil⟩

theorem Linked.tail (h : Linked m (f :: fs)) : Linked m fs :=
  ⟨fun x hx => h.stored x (by simp [hx]), h.links.of_cons⟩

theorem Linked.left {gs : List Frame} (h : Linked m (fs ++ gs)) : Linked m fs :=
  ⟨fun x hx => h.stored x (by simp [hx]), h.links.left_of_append⟩

theorem Layout.nil (h : n < 2 ^ 62) : Layout n [] := ⟨ring_nil, by simp, by simp, by simp, h⟩

theorem Layout.tail (h : Layout n (f :: fs)) : Layout n fs :=
  ⟨h.ring.tail, fun x hx => h.lower x (by simp [hx]), fun x hx => h.upper x (by simp [hx]),
    fun x hx => h.aligned x (by simp [hx]), h.size⟩

/-- No two frames of a layout overlap. -/
theorem Layout.disjoint (h : Layout n fs) :
    fs.Pairwise fun f g => f.stop ≤ g.off ∨ g.stop ≤ f.off := h.ring.disjoint

/-! ### What the list depends on -/

/-- The frames are still there if their own bytes are, the links of all but the
newest included. -/
theorem Linked.congr (h : Linked m fs)
    (hb : ∀ f ∈ fs, ∀ x, f.off ≤ x → x < f.stop → x < f.off + 16 ∨ f.off + 24 ≤ x → m' x = m x)
    (hn : ∀ f ∈ fs.dropLast, frameNextOff m' f.off = frameNextOff m f.off) : Linked m' fs := by
  have word : ∀ f ∈ fs, ∀ k, k + 8 ≤ 40 → k + 8 ≤ 16 ∨ 24 ≤ k →
      m'.load 8 (f.off + k) = m.load 8 (f.off + k) := by
    intro f hf k hk hk'
    exact Mem.load_congr fun x hx hx' =>
      hb f hf x (by omega) (by unfold Frame.stop; omega) (by omega)
  constructor
  · intro f hf
    have hin := h.stored f hf
    refine ⟨?_, ?_, ?_, ?_⟩
    · rw [← hin.seq]; exact word f hf 0 (by omega) (by omega)
    · rw [frameOff, word f hf 8 (by omega) (by omega)]; exact hin.off
    · rw [frameDataSize, word f hf 32 (by omega) (by omega)]; exact hin.size
    · have hsame : m'.loadBytes (f.off + 40) f.data.length = m.loadBytes (f.off + 40) f.data.length :=
        Mem.loadBytes_congr fun x hx hx' =>
          hb f hf x (by omega) (by unfold Frame.stop; omega) (by omega)
      rw [hsame]
      exact hin.data
  · rw [List.isChain_iff_getElem]
    intro i hi
    have hl := List.isChain_iff_getElem.mp h.links i hi
    have hmem : fs[i] ∈ fs.dropLast := by
      rw [← List.getElem_dropLast (i := i) (h := by simp; omega)]
      exact List.getElem_mem _
    refine ⟨(hn _ hmem).trans hl.1, ?_⟩
    rw [← hl.2]
    exact word _ (List.getElem_mem _) 24 (by omega) (by omega)

theorem Linked.sameFrames (h : Linked m fs) (hlo : ∀ f ∈ fs, 144 ≤ f.off) (hs : SameFrames m m') :
    Linked m' fs := by
  refine h.congr (fun f hf x hx _ _ => hs x (.inr ((hlo f hf).trans hx))) fun f hf => ?_
  have := hlo f (List.dropLast_subset _ hf)
  exact hs.load (by omega)

theorem Holds.sameFrames (h : Holds m n s fs) (hs : SameFrames m m') : Holds m' n s fs :=
  ⟨h.page, h.linked.sameFrames h.layout.lower hs, h.layout⟩

/-! ### Offsets -/

theorem maxAlign_eq {a : ℕ} (h : a < 2 ^ 63) : maxAlign a = (a + 15) / 16 * 16 := by
  rw [maxAlign, wrap_of_lt (by omega)]

theorem frameEnd_eq (h : Holds m n s fs) (hf : f ∈ fs) : frameEnd m f.off = f.stop := by
  have h₁ := h.layout.upper f hf
  have h₂ := h.layout.size
  unfold Frame.stop at h₁
  rw [frameEnd, (h.linked.stored f hf).size, wrap_of_lt (n := f.off + 40) (by omega),
    wrap_of_lt (by omega), Frame.stop]

theorem stop_ge (h : Layout n fs) (hf : f ∈ fs) : 144 ≤ f.stop := by
  have := h.lower f hf
  unfold Frame.stop; omega

/-! ### Removing the oldest frame -/

theorem Holds.head_off (h : Holds m n s (f :: fs)) : s.offHead = f.off := by
  simpa using h.page.head

theorem Holds.tail_off (h : Holds m n s (fs ++ [g])) : s.offTail = g.off := by
  simpa using h.page.tail

/-- The oldest and the newest frame are the same one exactly if there is no
other. -/
theorem Holds.head_eq_tail_iff (h : Holds m n s (f :: fs)) :
    s.offHead = s.offTail ↔ fs = [] := by
  rw [h.head_off]
  constructor
  · intro he
    by_contra hne
    obtain ⟨ys, g, rfl⟩ := List.eq_nil_or_concat fs |>.resolve_left hne
    rw [List.concat_eq_append] at *
    have ht : s.offTail = g.off := Holds.tail_off (show Holds m n s (f :: ys ++ [g]) from h)
    have hd := List.rel_of_pairwise_cons h.layout.disjoint (show g ∈ ys ++ [g] by simp)
    have h₁ := f.off_lt_stop
    have h₂ := g.off_lt_stop
    rcases hd with hd | hd <;> omega
  · rintro rfl
    simpa using h.page.tail.symm

/-- `a0_transport_remove_head` removes the oldest frame. -/
theorem Holds.removeHead (h : Holds m n s (f :: fs)) :
    Holds m n (removeHeadState m s) fs ∧ (removeHeadState m s).seqHigh = s.seqHigh := by
  have hhigh : s.seqLow + (fs.length + 1) = s.seqHigh + 1 := by
    rcases h.page.high with hh | hh
    · simpa using hh
    · simp at hh
  have hself := (h.linked.stored f (by simp)).off
  refine ⟨⟨?_, h.linked.tail, h.layout.tail⟩, by rw [removeHeadState]; split_ifs <;> rfl⟩
  obtain ⟨hseq, hseqs⟩ : f.seq = s.seqLow ∧ fs.map Frame.seq = List.range' (s.seqLow + 1) fs.length := by
    have := h.page.seqs
    rwa [List.map_cons, List.length_cons, List.range'_succ, List.cons.injEq] at this
  have hlow : wrap (s.seqLow + 1) = s.seqLow + 1 := wrap_of_lt (by have := h.page.fits; omega)
  rcases List.eq_nil_or_concat fs with rfl | ⟨ys, g, rfl⟩
  · rw [removeHeadState, if_pos (h.head_eq_tail_iff.mpr rfl), hlow]
    exact ⟨by simp, .inl (by simpa using hhigh), by simp, by simp, by simp, by simp [maxHi],
      h.page.fits⟩
  · rw [List.concat_eq_append] at *
    have ht : s.offTail = g.off := Holds.tail_off (show Holds m n s (f :: ys ++ [g]) from h)
    rw [removeHeadState, if_neg (by rw [h.head_eq_tail_iff]; simp), hlow, h.head_off, hself, ht,
      frameEnd_eq h (by simp), frameEnd_eq h (f := g) (by simp), h.page.mark]
    refine ⟨hseqs, .inl (by simp only; omega), by simp, ?_, by simp, ?_, h.page.fits⟩
    · obtain ⟨x, xs, hx⟩ : ∃ x xs, ys ++ [g] = x :: xs := List.exists_cons_of_ne_nil (by simp)
      have hlinks := h.linked.links
      rw [hx] at hlinks ⊢
      simpa using (List.isChain_cons_cons.mp hlinks).1.1
    · exact (maxHi_tail Frame.off_lt_stop h.layout.ring (by simp)
        (stop_ge h.layout (f := g) (by simp))).symm

/-! ### Placing a frame -/

/-- The page `a0_transport_alloc` leaves, from the page after its evictions. -/
def placeState (s : TransportState) (f : Frame) : TransportState where
  seqLow := if s.seqLow = 0 then f.seq else s.seqLow
  seqHigh := f.seq
  offHead := if s.offHead = 0 then f.off else s.offHead
  offTail := f.off
  highWaterMark := max s.highWaterMark f.stop

/-- A new frame behind the newest in the list. -/
theorem PageOf.snoc (h : PageOf s fs) (hlo : ∀ g ∈ fs, 144 ≤ g.off) (hf : 144 ≤ f.off)
    (hseq : f.seq = s.seqHigh + 1) (hfits : s.seqHigh + 2 < 2 ^ 64) :
    PageOf (placeState s f) (fs ++ [f]) := by
  have hstop : 144 ≤ f.stop := by unfold Frame.stop; omega
  have hmark : (placeState s f).highWaterMark = maxHi Frame.stop 144 (fs ++ [f]) := by
    rw [maxHi_snoc, ← h.mark, max_eq_left hstop]; rfl
  rcases List.eq_nil_or_concat fs with rfl | ⟨ys, g, rfl⟩
  · have hhead : s.offHead = 0 := by simpa using h.head
    have hlow : (placeState s f).seqLow = f.seq := by
      simp only [placeState]
      split_ifs with h0
      · rfl
      · rcases h.high with hh | hh
        · simp only [List.length_nil] at hh; omega
        · exact absurd hh.2.1 h0
    refine ⟨by simp [hlow], .inl (by rw [hlow]; rfl), fun _ => by omega, ?_, rfl, hmark, ?_⟩
    · simp [placeState, hhead]
    · simp only [placeState]; omega
  · rw [List.concat_eq_append] at *
    have hpos := h.pos (by simp)
    have hlen : s.seqLow + (ys ++ [g]).length = s.seqHigh + 1 := by
      rcases h.high with hh | hh
      · exact hh
      · simp at hh
    have hlow : (placeState s f).seqLow = s.seqLow := by
      simp only [placeState]; rw [if_neg (by omega)]
    obtain ⟨x, xs, hx⟩ : ∃ x xs, ys ++ [g] = x :: xs := List.exists_cons_of_ne_nil (by simp)
    have hhead : s.offHead = x.off := by rw [h.head, hx]; rfl
    have hx144 := hlo x (by rw [hx]; simp)
    refine ⟨?_, .inl ?_, fun _ => by omega, ?_, ?_, hmark, by simp only [placeState]; omega⟩
    · have hlen' : (ys ++ [g] ++ [f]).length = (ys ++ [g]).length + 1 := by simp
      rw [List.map_append, h.seqs, hlow, hlen', List.range'_concat, Nat.one_mul, hlen, ← hseq]
      rfl
    · rw [hlow, List.length_append, List.length_singleton]; simp only [placeState]; omega
    · simp only [placeState, hhead, if_neg (show ¬ x.off = 0 by omega), hx]; rfl
    · simp [placeState]

/-- `a0_transport_clear` leaves no frame. -/
theorem PageOf.clear (h : PageOf s fs) : PageOf (clearState s) [] := by
  have hw : wrap (s.seqHigh + 1) = s.seqHigh + 1 := wrap_of_lt h.fits
  exact ⟨by simp, .inl (by simp [clearState, hw]), by simp, rfl, rfl, rfl, h.fits⟩

/-! ### The slot -/

/-- The eviction test of the slot `[off, off + size)`, on a list of frames: the
oldest frame is in the way; or the ring has been started over once already, and
is about to be started over again. -/
def Evicts (off size : ℕ) : List Frame → Prop
  | [] => False
  | f :: fs => off < f.stop ∧ f.off < off + size ∨
      ((f :: fs).getLast?.map Frame.off).getD 0 < f.off ∧ off = 144

instance (off size : ℕ) (fs : List Frame) : Decidable (Evicts off size fs) := by
  cases fs <;> unfold Evicts <;> infer_instance

/-- Where the code puts a frame of `size` bytes, header included. -/
def slotOff (n size : ℕ) (fs : List Frame) : ℕ :=
  match fs.getLast? with
  | none => 144
  | some g => if n ≤ maxAlign g.stop + size then 144 else maxAlign g.stop

section Slot

variable {i size off : ℕ} {c : TransportState}

theorem slotEvicts_iff (hv : View m i c s n) (h : Holds m n s fs) (hsize : off + size < 2 ^ 64) :
    slotEvicts m off size = true ↔ Evicts off size fs := by
  have hw := hv.workingState_eq
  have hp : loadState m (workingPage m) = s := hw
  have he : empty m = s.empty := by rw [empty, hw]
  cases fs with
  | nil =>
    have : s.empty = true := h.page.empty_iff.mpr rfl
    simp [slotEvicts, headInterval, he, this, Evicts]
  | cons f fs =>
    have hne : s.empty = false := by
      rw [Bool.eq_false_iff]; exact fun hs => by simpa using h.page.empty_iff.mp hs
    have hsz := (h.linked.stored f (by simp)).size
    have hup := h.layout.upper f (by simp)
    have hn := h.layout.size
    have hstop : wrap (f.off + wrap (40 + frameDataSize m f.off)) = f.stop := by
      unfold Frame.stop at hup ⊢
      rw [hsz, wrap_of_lt (n := 40 + _) (by omega), wrap_of_lt (by omega)]; omega
    simp only [slotEvicts, headInterval, he, hne, hp, h.head_off, frameIntersects,
      wrap_of_lt hsize, hw, h.page.tail, workspaceOff_eq, Evicts]
    simp [hstop]

/-- The code finds the slot, or finds that there is none. -/
theorem findSlot_eq (hv : View m i c s n) (h : Holds m n s fs) (hsize : size < 2 ^ 63 + 40) :
    findSlot m size =
      if n < 144 + size then .error .frameLarge else .ok (slotOff n size fs) := by
  have hw := hv.workingState_eq
  have he : empty m = s.empty := by rw [empty, hw]
  have hn := h.layout.size
  rcases List.eq_nil_or_concat fs with rfl | ⟨ys, g, rfl⟩
  · have : s.empty = true := h.page.empty_iff.mpr rfl
    simp only [findSlot, he, this, if_true, workspaceOff_eq, hv.size, slotOff, List.getLast?_nil]
    rw [wrap_of_lt (by omega)]
  · rw [List.concat_eq_append] at *
    have hne : s.empty = false := by
      rw [Bool.eq_false_iff]; exact fun hs => by simpa using h.page.empty_iff.mp hs
    have hup := h.layout.upper g (by simp)
    have hlo := stop_ge h.layout (f := g) (by simp)
    have ha := maxAlign_eq (a := g.stop) (by omega)
    have hend := frameEnd_eq h (f := g) (by simp)
    have hwrap : wrap (maxAlign g.stop + size) = maxAlign g.stop + size := wrap_of_lt (by omega)
    have hwrap' : wrap (144 + size) = 144 + size := wrap_of_lt (by omega)
    simp only [findSlot, he, hne, hw, h.tail_off, hend, hv.size, slotOff, workspaceOff_eq,
      List.getLast?_concat, hwrap, Bool.false_eq_true, if_false]
    by_cases hle : n ≤ maxAlign g.stop + size
    · simp only [if_pos hle, hwrap']
    · simp only [if_neg hle, hwrap]
      rw [if_neg (by omega), if_neg (by omega)]

/-- The slot is aligned and lies in the arena. -/
theorem slotOff_spec (h : Layout n fs) (hfit : 144 + size ≤ n) :
    144 ≤ slotOff n size fs ∧ slotOff n size fs + size ≤ n ∧ slotOff n size fs % 16 = 0 := by
  unfold slotOff
  have hn := h.size
  split
  · omega
  · rename_i g hg
    have hmem := List.mem_of_getLast? hg
    have hup := h.upper g hmem
    have hlo := stop_ge h hmem
    have ha := maxAlign_eq (a := g.stop) (by omega)
    split_ifs <;> omega

/-- A frame in the slot, once nothing is left to evict, keeps the layout. -/
theorem Layout.snoc (h : Layout n fs) (hfit : 144 + size ≤ n) (hoff : f.off = off)
    (hstop : f.stop = off + size) (hslot : fs ≠ [] → off = slotOff n size fs)
    (hnil : fs = [] → 144 ≤ off ∧ off + size ≤ n ∧ off % 16 = 0) (hev : ¬ Evicts off size fs) :
    Layout n (fs ++ [f]) := by
  have hplace : 144 ≤ off ∧ off + size ≤ n ∧ off % 16 = 0 := by
    by_cases hne : fs = []
    · exact hnil hne
    · rw [hslot hne]; exact slotOff_spec h hfit
  refine ⟨?_, ?_, ?_, ?_, h.size⟩
  · cases fs with
    | nil => simp
    | cons x xs =>
      obtain ⟨g, hg⟩ : ∃ g, (x :: xs).getLast? = some g :=
        ⟨_, List.getLast?_eq_getLast_of_ne_nil (by simp)⟩
      have hmem := List.mem_of_getLast? hg
      have hslot := hslot (by simp)
      have hx := x.off_lt_stop
      simp only [Evicts, hg, Option.map_some, Option.getD_some, not_or, not_and, not_lt] at hev
      have hxlo := h.lower x (by simp)
      have hgup := h.upper g hmem
      have hn := h.size
      have ha := maxAlign_eq (a := g.stop) (by omega)
      have hgs := g.off_lt_stop
      simp only [slotOff, hg] at hslot
      split_ifs at hslot with hwrap
      · -- the ring is started over
        refine h.ring.snoc_base Frame.off_lt_stop hg (hoff.trans hslot) ?_ ?_
        · rw [hstop]; exact hev.1 (by omega)
        · exact fun hlt => hev.2 hlt hslot
      · refine h.ring.snoc_after Frame.off_lt_stop hg (by rw [hoff]; omega) fun hlt => ?_
        -- the newest frame ends below the oldest, which is aligned, so the slot begins below it
        rw [hstop]
        refine hev.1 ?_
        have hxa := h.aligned x (by simp)
        have hgx : g.stop ≤ x.off := by
          rcases List.mem_cons.mp hmem with rfl | hmem
          · omega
          · rcases List.rel_of_pairwise_cons h.disjoint hmem with hd | hd <;> omega
        omega
  · intro y hy
    rcases List.mem_append.mp hy with hy | hy
    · exact h.lower y hy
    · rw [List.mem_singleton.mp hy, hoff]; exact hplace.1
  · intro y hy
    rcases List.mem_append.mp hy with hy | hy
    · exact h.upper y hy
    · rw [List.mem_singleton.mp hy, hstop]; exact hplace.2.1
  · intro y hy
    rcases List.mem_append.mp hy with hy | hy
    · exact h.aligned y hy
    · rw [List.mem_singleton.mp hy, hoff]; exact hplace.2.2

end Slot

end Transport

end AlephZero
