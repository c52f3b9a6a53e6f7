import AlephZero.Transport.Refinement

/-!
# Holding the lock

The states in which some process holds the lock of a transport and may make its next
call: any calls, by any processes, in any mode in which they may write and in any order,
lead from one to another; and so does a death in a call in SHARED mode, before any store
or after any of them, behind which others may die as well, in `a0_transport_lock`, until
one of them has the lock.

## What is proved

* **`Held.ready`** — the pages of such a state are in order.
-/

namespace AlephZero

open ByteMem StoreProg Prog

namespace Transport

variable {mode : ArenaMode} {m t u : Mem} {n q : ℕ} {C X : List Frame} {slot : Slot}

/-- The lock is taken: whoever dies in `a0_transport_lock` leaves it to the next one. -/
inductive Relocked : Mem → Mem → Prop where
  /-- The lock is held. -/
  | held (t : Mem) : Relocked t ((lock .shared).exec t)
  /-- A death in `a0_transport_lock`. -/
  | died {t t' u : Mem} : (lock .shared).Crash t t' → Relocked t' u → Relocked t u

/-- A process can hold the lock with this memory, and with this frame that it has not
committed yet. Sizes are those of objects, and sequence numbers do not run out. -/
inductive Held : Mem → Slot → Prop where
  /-- An arena that was all zero, just opened. -/
  | opened (mode : ArenaMode) {size : ℕ} : size < 2 ^ 62 → Held (reached mode [.init size]) none
  /-- A call. -/
  | call {m : Mem} {slot : Slot} {mode : ArenaMode} (c : Call) : Held m slot → mode ≠ .readonly →
    c.Fits → (workingState m).seqHigh + c.isAlloc.toNat + 1 < 2 ^ 64 →
    Held ((c.prog mode slot).exec m) ((c.prog mode slot).eval m)
  /-- A death in a call, and the next holder. -/
  | death {m t u : Mem} {slot : Slot} (c : Call) : Held m slot → c.Fits →
    (workingState m).seqHigh + c.isAlloc.toNat + 1 < 2 ^ 64 → (c.prog .shared slot).Crash m t →
    Relocked t u → Held u none

theorem Relocked.ready (h : Relocked t u) (hl : Logged t n C q) : Ready u n C [] q := by
  induction h with
  | held t => exact post_of_wpc (lock_ready hl)
  | died hc _ ih =>
    apply ih
    rcases hc with rfl | ht
    · exact hl
    · exact (lock_ready hl).1 _ ht

/-- **The pages are in order** whenever the lock is held. -/
theorem Held.ready (h : Held m slot) : ∃ n C X q, Ready m n C X q ∧ Outstanding slot X := by
  induction h with
  | opened mode hsize => exact ⟨_, [], [], 0, reached_init mode hsize, outstanding_none⟩
  | @call m slot mode c _ hmode hfits hseq ih =>
    obtain ⟨n, C, X, q, hr, hs⟩ := ih
    rw [hr.seqHigh_eq] at hseq
    have hp : c.Post mode m n C X q slot _ _ := post_of_wpc (c.prog_wpc hmode hr hs hfits hseq)
    obtain ⟨n', C', X', q', hr', hs', -⟩ := hp.ready hr hs
    exact ⟨n', C', X', q', hr', hs'⟩
  | @death m t u slot c _ hfits hseq hc hu ih =>
    obtain ⟨n, C, X, q, hr, hs⟩ := ih
    rw [hr.seqHigh_eq] at hseq
    obtain ⟨n', C', q', hl⟩ : ∃ n' C' q', Logged t n' C' q' := by
      rcases hc with rfl | ht
      · exact ⟨n, C, q, hr.logged⟩
      · exact Call.Mid.exists_logged ((c.prog_wpc (by decide) hr hs hfits hseq).1 t ht)
    exact ⟨n', C', [], q', hu.ready hl, outstanding_none⟩

end Transport

end AlephZero
