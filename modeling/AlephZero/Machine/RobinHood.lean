import Mathlib.Algebra.BigOperators.Intervals
import Mathlib.Algebra.Order.BigOperators.Group.Finset
import Mathlib.Data.Nat.ModEq

/-!
# Robin Hood tables

A circular table of slots, in which the entry with key `k` belongs to the slot
`home k`, and lies some slots behind it. The distance is written in the slot, counted
from one; distance zero is an empty slot. From one slot to the next the distance
grows by at most one (`Ordered`). A search can then stop at the first slot whose
distance is too small. Positions are counted around the table: position `i` is the
slot `i % N`.

## What is proved

* `Ordered.before` — in front of an entry no slot is empty, and none has a distance
  that ends the search for it.
* `Carrying.put`, `Carrying.swap`, `Carrying.skip` — an insertion carries an entry
  from slot to slot, and may put it down where the distance is smaller.
* `Ordered.hole`, `Hole.shift`, `Hole.close` — a deletion moves its hole from slot to
  slot, and is done where the next distance is at most one.
* `entries_update` — what a table holds when a slot is overwritten.
-/

namespace RobinHood

open Function

/-- A slot: the distance, and an entry. -/
structure Slot (K V : Type*) where
  off : ℕ
  key : K
  val : V
  deriving DecidableEq, Repr

/-- The slots of a table. -/
abbrev Table (K V : Type*) := ℕ → Slot K V

variable {K V : Type*} {N : ℕ} {home : K → ℕ} {T : Table K V} {b : Slot K V} {i j t x : ℕ}

/-! ### What a table holds -/

/-- The entry of a slot, if it has one. -/
def Slot.entry (b : Slot K V) : Multiset (K × V) := if b.off = 0 then 0 else {(b.key, b.val)}

theorem Slot.entry_of_empty (h : b.off = 0) : b.entry = 0 := if_pos h

theorem Slot.entry_of_ne (h : b.off ≠ 0) : b.entry = {(b.key, b.val)} := if_neg h

/-- The entries of the slots from `i` on. -/
def entriesFrom (N : ℕ) (T : Table K V) (i : ℕ) : Multiset (K × V) :=
  ∑ j ∈ Finset.Ico i N, (T j).entry

/-- The entries of a table. -/
def entries (N : ℕ) (T : Table K V) : Multiset (K × V) := entriesFrom N T 0

theorem entriesFrom_of_lt (h : i < N) : entriesFrom N T i = (T i).entry + entriesFrom N T (i + 1) :=
  Finset.sum_eq_sum_Ico_succ_bot h _

theorem entriesFrom_of_le (h : N ≤ i) : entriesFrom N T i = 0 := by
  rw [entriesFrom, Finset.Ico_eq_empty_of_le h, Finset.sum_empty]

theorem mem_entries {p : K × V} :
    p ∈ entries N T ↔ ∃ i < N, (T i).off ≠ 0 ∧ p = ((T i).key, (T i).val) := by
  simp only [entries, entriesFrom, Multiset.mem_sum, Finset.mem_Ico, Nat.zero_le, true_and]
  refine exists_congr fun i => and_congr_right fun _ => ?_
  by_cases h : (T i).off = 0
  · simp [Slot.entry_of_empty h, h]
  · simp [Slot.entry_of_ne h, h]

theorem slot_mem_entries (hi : i < N) (h : (T i).off ≠ 0) : ((T i).key, (T i).val) ∈ entries N T :=
  mem_entries.mpr ⟨i, hi, h, rfl⟩

/-- Overwriting a slot loses its entry, and adds the new one. -/
theorem entries_update (hi : i < N) :
    entries N (update T i b) + (T i).entry = entries N T + b.entry := by
  have hmem : i ∈ Finset.Ico 0 N := by simp [hi]
  simp only [entries, entriesFrom]
  rw [← Finset.add_sum_erase _ _ hmem, ← Finset.add_sum_erase _ (fun j => (T j).entry) hmem, update_self]
  have hrest : ∑ j ∈ (Finset.Ico 0 N).erase i, (update T i b j).entry =
      ∑ j ∈ (Finset.Ico 0 N).erase i, (T j).entry :=
    Finset.sum_congr rfl fun j hj => by rw [update_of_ne (Finset.ne_of_mem_erase hj)]
  rw [hrest]
  ac_rfl

/-- One entry is put down in place of another. -/
theorem entries_swap (hi : i < N) (ho : (T i).off ≠ 0) (hb : b.off ≠ 0) :
    ((T i).key, (T i).val) ::ₘ entries N (update T i b) = (b.key, b.val) ::ₘ entries N T := by
  have hup := entries_update (T := T) (b := b) hi
  rw [Slot.entry_of_ne ho, Slot.entry_of_ne hb] at hup
  rw [← Multiset.singleton_add, ← Multiset.singleton_add, add_comm, hup, add_comm]

/-- There are as many entries as slots that are not empty. -/
theorem card_entries (N : ℕ) (T : Table K V) :
    (entries N T).card = ((Finset.range N).filter fun i => (T i).off ≠ 0).card := by
  rw [entries, entriesFrom, Multiset.card_sum, Finset.card_filter, Finset.range_eq_Ico]
  refine Finset.sum_congr rfl fun i _ => ?_
  by_cases h : (T i).off = 0
  · rw [Slot.entry_of_empty h, if_neg (not_not.mpr h), Multiset.card_zero]
  · rw [Slot.entry_of_ne h, if_pos h, Multiset.card_singleton]

theorem card_entries_of_full (h : ∀ i < N, (T i).off ≠ 0) : (entries N T).card = N := by
  have hone : ∀ i ∈ Finset.Ico 0 N, (T i).entry.card = 1 := fun i hi => by
    rw [Slot.entry_of_ne (h i (Finset.mem_Ico.mp hi).2), Multiset.card_singleton]
  rw [entries, entriesFrom, Multiset.card_sum, Finset.sum_congr rfl hone]
  simp

/-- A table with fewer entries than slots has an empty slot. -/
theorem exists_empty (h : (entries N T).card < N) : ∃ i < N, (T i).off = 0 := by
  by_contra hfull
  push Not at hfull
  exact absurd (card_entries_of_full hfull) h.ne

/-- A slot is found ahead of any position. -/
theorem exists_ahead (hx : x < N) (i : ℕ) : ∃ e < N, (i + e) % N = x := by
  have hi : i % N < N := Nat.mod_lt _ (by omega)
  refine ⟨(x + (N - i % N)) % N, Nat.mod_lt _ (by omega), ?_⟩
  rw [Nat.add_mod_mod, ← Nat.mod_add_mod, show i % N + (x + (N - i % N)) = x + N by omega,
    Nat.add_mod_right, Nat.mod_eq_of_lt hx]

/-! ### The order of the distances -/

/-- Every entry lies at its distance from its home, and the distance grows by at most
one from slot to slot. -/
structure Ordered (N : ℕ) (home : K → ℕ) (T : Table K V) : Prop where
  placed : ∀ i < N, (T i).off ≠ 0 → (home (T i).key + (T i).off) % N = (i + 1) % N
  steps : ∀ i, (T ((i + 1) % N)).off ≤ (T (i % N)).off + 1

theorem ordered_empty (h : ∀ i, (T i).off = 0) : Ordered N home T :=
  ⟨fun i _ hi => absurd (h i) hi, fun i => by simp [h]⟩

theorem Ordered.run (h : Ordered N home T) (i t : ℕ) :
    (T ((i + t) % N)).off ≤ (T (i % N)).off + t := by
  induction t with
  | zero => rfl
  | succ t ih => exact (h.steps (i + t)).trans (Nat.succ_le_succ ih)

/-- The search for the key of a slot gets to the slot. -/
theorem Ordered.reaches (h : Ordered N home T) (hi : i < N) (ho : (T i).off ≠ 0) :
    (home (T i).key + ((T i).off - 1)) % N = i := by
  have hp := h.placed i hi ho
  have hc : home (T i).key + ((T i).off - 1) + 1 ≡ i + 1 [MOD N] := by
    rwa [add_assoc, Nat.sub_add_cancel (Nat.pos_of_ne_zero ho)]
  exact Eq.trans (hc.add_right_cancel' 1) (Nat.mod_eq_of_lt hi)

/-- On the way, no distance is too small. -/
theorem Ordered.before (h : Ordered N home T) (hi : i < N) (ht : t < (T i).off) :
    t < (T ((home (T i).key + t) % N)).off := by
  have hr := h.run (home (T i).key + t) ((T i).off - 1 - t)
  rw [show home (T i).key + t + ((T i).off - 1 - t) = home (T i).key + ((T i).off - 1) by omega,
    h.reaches hi (by omega)] at hr
  omega

/-- A value can be overwritten. -/
theorem Ordered.overwrite (h : Ordered N home T) (hoff : b.off = (T i).off) (hkey : b.key = (T i).key) :
    Ordered N home (update T i b) := by
  have ho : ∀ j, (update T i b j).off = (T j).off := fun j => by
    by_cases hj : j = i
    · rw [hj, update_self, hoff]
    · rw [update_of_ne hj]
  have hk : ∀ j, (update T i b j).key = (T j).key := fun j => by
    by_cases hj : j = i
    · rw [hj, update_self, hkey]
    · rw [update_of_ne hj]
  exact ⟨fun j => by rw [ho, hk]; exact h.placed j, fun j => by rw [ho, ho]; exact h.steps j⟩

/-! ### Insertion -/

/-- The entry `b` can be put down at position `i`, if the distance there is smaller. -/
structure Carrying (N : ℕ) (home : K → ℕ) (T : Table K V) (b : Slot K V) (i : ℕ) : Prop where
  ordered : Ordered N home T
  occupied : b.off ≠ 0
  placed : (home b.key + b.off) % N = (i + 1) % N
  prev : ∀ j, (j + 1) % N = i % N → b.off ≤ (T (j % N)).off + 1

/-- It starts at its home. -/
theorem Ordered.carrying (h : Ordered N home T) (k : K) (v : V) (hi : i % N = home k % N) :
    Carrying N home T ⟨1, k, v⟩ i :=
  ⟨h, one_ne_zero, (Nat.ModEq.add_right 1 hi).symm, fun _ _ => by simp⟩

theorem Carrying.put (h : Carrying N home T b i) (hlt : (T (i % N)).off < b.off) :
    Ordered N home (update T (i % N) b) where
  placed j hj := by
    by_cases hji : j = i % N
    · rw [hji, update_self, Nat.mod_add_mod]
      exact fun _ => h.placed
    · rw [update_of_ne hji]
      exact h.ordered.placed j hj
  steps j := by
    have hs := h.ordered.steps j
    by_cases hn : (j + 1) % N = i % N
    · rw [hn, update_self]
      by_cases hj : j % N = i % N
      · rw [hj, update_self]; omega
      · rw [update_of_ne hj]; exact h.prev j hn
    · rw [update_of_ne hn]
      by_cases hj : j % N = i % N
      · rw [hj, update_self]; rw [hj] at hs; omega
      · rwa [update_of_ne hj]

theorem add_one_mod_congr (h : i % N = j % N) : (i + 1) % N = (j + 1) % N := Nat.ModEq.add_right 1 h

theorem mod_congr_of_add_one (h : (i + 1) % N = (j + 1) % N) : i % N = j % N :=
  Nat.ModEq.add_right_cancel' 1 h

/-- It is put down, and the entry that was there is carried on. -/
theorem Carrying.swap (h : Carrying N home T b i) (hN : 0 < N) (hne : (T (i % N)).off ≠ 0)
    (hlt : (T (i % N)).off < b.off) : Carrying N home (update T (i % N) b)
      { T (i % N) with off := (T (i % N)).off + 1 } (i + 1) where
  ordered := h.put hlt
  occupied := Nat.succ_ne_zero _
  placed := by
    have hp := h.ordered.placed (i % N) (Nat.mod_lt _ hN) hne
    rw [Nat.mod_add_mod] at hp
    exact Nat.ModEq.add_right 1 hp
  prev j hj := by
    rw [mod_congr_of_add_one hj, update_self]
    exact Nat.succ_le_succ hlt.le

/-- It is carried past an entry with a distance that is not smaller. -/
theorem Carrying.skip (h : Carrying N home T b i) (hle : b.off ≤ (T (i % N)).off) :
    Carrying N home T { b with off := b.off + 1 } (i + 1) where
  ordered := h.ordered
  occupied := Nat.succ_ne_zero _
  placed := Nat.ModEq.add_right 1 h.placed
  prev j hj := by
    rw [mod_congr_of_add_one hj]
    exact Nat.succ_le_succ hle

/-! ### Deletion -/

/-- The slot at position `i` is empty, and but for it the table is ordered. -/
structure Hole (N : ℕ) (home : K → ℕ) (T : Table K V) (i : ℕ) : Prop where
  empty : (T (i % N)).off = 0
  placed : ∀ j < N, (T j).off ≠ 0 → (home (T j).key + (T j).off) % N = (j + 1) % N
  steps : ∀ j, j % N ≠ i % N → (T ((j + 1) % N)).off ≤ (T (j % N)).off + 1
  gap : ∀ j, (j + 1) % N = i % N → (T ((i + 1) % N)).off ≤ (T (j % N)).off + 2

theorem Ordered.hole (h : Ordered N home T) (i : ℕ) :
    Hole N home (update T (i % N) { T (i % N) with off := 0 }) i where
  empty := by rw [update_self]
  placed j hj := by
    by_cases hji : j = i % N
    · rw [hji, update_self]; exact fun ho => absurd rfl ho
    · rw [update_of_ne hji]; exact h.placed j hj
  steps j hj := by
    rw [update_of_ne hj]
    by_cases hn : (j + 1) % N = i % N
    · rw [hn, update_self]; exact Nat.zero_le _
    · rw [update_of_ne hn]; exact h.steps j
  gap j hj := by
    by_cases hn : (i + 1) % N = i % N
    · rw [hn, update_self]; exact Nat.zero_le _
    · have hj' : j % N ≠ i % N := fun he => hn ((add_one_mod_congr he.symm).trans hj)
      have h₁ := h.steps i
      have h₂ := h.steps j
      rw [hj] at h₂
      rw [update_of_ne hn, update_of_ne hj']
      omega

/-- The entry behind the hole moves into it. -/
def shift (N : ℕ) (T : Table K V) (i : ℕ) : Table K V :=
  update (update T (i % N) { T ((i + 1) % N) with off := (T ((i + 1) % N)).off - 1 })
    ((i + 1) % N) { T ((i + 1) % N) with off := 0 }

theorem shift_next : (shift N T i ((i + 1) % N)).off = 0 := by rw [shift, update_self]

theorem shift_hole (h : (i + 1) % N ≠ i % N) :
    shift N T i (i % N) = { T ((i + 1) % N) with off := (T ((i + 1) % N)).off - 1 } := by
  rw [shift, update_of_ne h.symm, update_self]

theorem shift_of_ne (h₁ : j ≠ i % N) (h₂ : j ≠ (i + 1) % N) : shift N T i j = T j := by
  rw [shift, update_of_ne h₂, update_of_ne h₁]

theorem Hole.ne_next (h : Hole N home T i) (hlt : 1 < (T ((i + 1) % N)).off) :
    (i + 1) % N ≠ i % N := by
  intro he
  rw [he, h.empty] at hlt
  omega

theorem Hole.shift (h : Hole N home T i) (hlt : 1 < (T ((i + 1) % N)).off) :
    Hole N home (shift N T i) (i + 1) where
  empty := shift_next
  placed j hj := by
    have hne := h.ne_next hlt
    by_cases h₂ : j = (i + 1) % N
    · rw [h₂, shift_next]; exact fun ho => absurd rfl ho
    by_cases h₁ : j = i % N
    · intro _
      have hp := h.placed ((i + 1) % N) (Nat.mod_lt _ (by omega)) (by omega)
      rw [Nat.mod_add_mod] at hp
      rw [h₁, shift_hole hne, Nat.mod_add_mod]
      apply mod_congr_of_add_one
      rwa [add_assoc, Nat.sub_add_cancel (by omega)]
    · rw [shift_of_ne h₁ h₂]; exact h.placed j hj
  steps j hj := by
    have hne := h.ne_next hlt
    by_cases h₂ : (j + 1) % N = (i + 1) % N
    · rw [h₂, shift_next]; exact Nat.zero_le _
    have hji : j % N ≠ i % N := fun he => h₂ (add_one_mod_congr he)
    rw [shift_of_ne hji hj]
    by_cases h₁ : (j + 1) % N = i % N
    · have := h.gap j h₁
      rw [h₁, shift_hole hne]
      simp only
      omega
    · rw [shift_of_ne h₁ h₂]; exact h.steps j hji
  gap j hj := by
    have hne := h.ne_next hlt
    have hs := h.steps (i + 1) hne
    rw [mod_congr_of_add_one hj, shift_hole hne]
    simp only
    by_cases h₂ : (i + 1 + 1) % N = (i + 1) % N
    · rw [h₂, shift_next]; exact Nat.zero_le _
    by_cases h₁ : (i + 1 + 1) % N = i % N
    · rw [h₁, shift_hole hne]; simp only; omega
    · rw [shift_of_ne h₁ h₂]; omega

/-- The table is ordered when the entry behind the hole is at home. -/
theorem Hole.close (h : Hole N home T i) (hle : (T ((i + 1) % N)).off ≤ 1) : Ordered N home T where
  placed := h.placed
  steps j := by
    by_cases hj : j % N = i % N
    · rw [add_one_mod_congr hj]; omega
    · exact h.steps j hj

theorem Hole.entries_shift (h : Hole N home T i) (hN : 0 < N) (hlt : 1 < (T ((i + 1) % N)).off) :
    entries N (RobinHood.shift N T i) = entries N T := by
  have hne := h.ne_next hlt
  have h₁ := entries_update (T := T) (b := { T ((i + 1) % N) with off := (T ((i + 1) % N)).off - 1 })
    (Nat.mod_lt i hN)
  rw [Slot.entry_of_empty h.empty, add_zero] at h₁
  have h₂ := entries_update (b := { T ((i + 1) % N) with off := 0 }) (Nat.mod_lt (i + 1) hN)
    (T := update T (i % N) { T ((i + 1) % N) with off := (T ((i + 1) % N)).off - 1 })
  rw [update_of_ne hne, h₁, Slot.entry_of_empty (b := { T ((i + 1) % N) with off := 0 }) rfl, add_zero,
    Slot.entry_of_ne (b := { T ((i + 1) % N) with off := _ }) (show (T ((i + 1) % N)).off - 1 ≠ 0 by omega),
    Slot.entry_of_ne (b := T ((i + 1) % N)) (by omega)] at h₂
  exact add_right_cancel h₂

end RobinHood
