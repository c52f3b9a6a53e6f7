import Mathlib.Order.Defs.LinearOrder
import Mathlib.Order.Lattice
import Mathlib.Data.List.Basic

/-!
# Intervals around a ring

Items that occupy intervals `[lo f, hi f)` of a line, listed from the oldest to
the newest, when new items are placed after the newest one and the line is
started over from `base` when it runs out. At any time the list is then in two
pieces, `upper ++ lower`: the line has been started over at most once since the
oldest item was placed, and `lower` is what has been placed since. Along the
line the pieces stand the other way round, `lower ++ upper`, in order.

## What is proved

* `Ring.disjoint` — no two items overlap.
* `Ring.tail` — removing the oldest item keeps the shape.
* `Ring.exists_base` — a ring that has been started over has an item at its base.
* `Ring.snoc_after`, `Ring.snoc_base` — so does placing a new item after the
  newest, and starting over.
* `maxHi_tail` — when the oldest item is removed, the highest end of an item is
  what it was, or, if the oldest item had it, the end of the newest.
-/

namespace IntervalRing

variable {α β : Type*} [LinearOrder β] (lo hi : α → β)

/-- `f` ends before `g` begins. -/
def Before (f g : α) : Prop := hi f ≤ lo g

/-- The items `fs`, oldest first, stand around a ring that starts over from
`base`. -/
def Ring (base : β) (fs : List α) : Prop :=
  ∃ upper lower, fs = upper ++ lower ∧ (lower ++ upper).Pairwise (Before lo hi) ∧
    (upper ≠ [] → ∀ f ∈ lower.head?, lo f = base)

/-- The highest end of an item, `base` if there is none. -/
def maxHi (base : β) (fs : List α) : β := fs.foldr (fun f m => max (hi f) m) base

variable {lo hi} {base : β} {fs : List α} {f g : α}

@[simp] theorem ring_nil : Ring lo hi base [] := ⟨[], [], rfl, .nil, by simp⟩

@[simp] theorem ring_singleton : Ring lo hi base [f] := ⟨[f], [], by simp⟩

/-- Items in order along the line are a ring. -/
theorem ring_of_pairwise (h : fs.Pairwise (Before lo hi)) : Ring lo hi base fs :=
  ⟨fs, [], by simp [h]⟩

theorem pairwise_of_ring_lower_nil {upper lower : List α} (h : (lower ++ upper).Pairwise (Before lo hi))
    (hnil : upper = [] ∨ lower = []) : (upper ++ lower).Pairwise (Before lo hi) := by
  rcases hnil with rfl | rfl <;> simpa using h

/-! ### Removing the oldest -/

theorem Ring.tail (h : Ring lo hi base (f :: fs)) : Ring lo hi base fs := by
  obtain ⟨upper, lower, he, hp, hb⟩ := h
  cases upper with
  | nil =>
    simp only [List.nil_append] at he
    subst he
    exact ring_of_pairwise (List.Pairwise.of_cons (by simpa only [List.append_nil] using hp))
  | cons u upper =>
    simp only [List.cons_append, List.cons.injEq] at he
    obtain ⟨rfl, rfl⟩ := he
    refine ⟨upper, lower, rfl, hp.sublist ?_, fun _ => hb (by simp)⟩
    exact (List.sublist_cons_self f upper).append_left lower

theorem Ring.drop (h : Ring lo hi base fs) (n : ℕ) : Ring lo hi base (fs.drop n) := by
  induction n generalizing fs with
  | zero => exact h
  | succ n ih =>
    cases fs with
    | nil => simp
    | cons f fs => exact ih h.tail

/-- Items may be replaced by others that stand where they did. -/
theorem Ring.map (h : Ring lo hi base fs) {e : α → α} (hlo : ∀ f, lo (e f) = lo f)
    (hhi : ∀ f, hi (e f) = hi f) : Ring lo hi base (fs.map e) := by
  obtain ⟨upper, lower, rfl, hp, hb⟩ := h
  refine ⟨upper.map e, lower.map e, List.map_append, ?_, fun hne f hf => ?_⟩
  · rw [← List.map_append, List.pairwise_map]
    exact hp.imp fun hfg => by rw [Before, hlo, hhi]; exact hfg
  · rw [List.head?_map, Option.mem_def, Option.map_eq_some_iff] at hf
    obtain ⟨g, hg, rfl⟩ := hf
    exact (hlo g).trans (hb (by simpa using hne) g hg)

/-- No two items of a ring overlap. -/
theorem Ring.disjoint (h : Ring lo hi base fs) :
    fs.Pairwise fun f g => hi f ≤ lo g ∨ hi g ≤ lo f := by
  obtain ⟨upper, lower, rfl, hp, -⟩ := h
  obtain ⟨hl, hu, hlu⟩ := List.pairwise_append.mp hp
  refine List.pairwise_append.mpr ⟨hu.imp Or.inl, hl.imp Or.inl, fun f hf g hg => ?_⟩
  exact Or.inr (hlu g hg f hf)

section Positive

variable (pos : ∀ f, lo f < hi f)
include pos

/-- In an ordered list every item ends by the end of the last. -/
theorem hi_le_of_pairwise (h : (fs ++ [g]).Pairwise (Before lo hi)) (hf : f ∈ fs ++ [g]) :
    hi f ≤ hi g := by
  rcases List.mem_append.mp hf with hf | hf
  · exact ((List.pairwise_append.mp h).2.2 f hf g (by simp)).trans (pos g).le
  · rw [List.mem_singleton.mp hf]

/-- A ring either is in order along the line, or has been started over, and then
the newest item stands below the oldest. -/
theorem Ring.cases (h : Ring lo hi base (f :: fs)) (hg : (f :: fs).getLast? = some g) :
    (f :: fs).Pairwise (Before lo hi) ∨
      lo g < lo f ∧ ∃ upper lower, f :: fs = f :: upper ++ (lower ++ [g]) ∧
        ((lower ++ [g]) ++ f :: upper).Pairwise (Before lo hi) ∧
        ∀ x ∈ (lower ++ [g]).head?, lo x = base := by
  obtain ⟨upper, lower, he, hp, hb⟩ := h
  cases upper with
  | nil => left; rw [he]; exact pairwise_of_ring_lower_nil hp (.inl rfl)
  | cons u upper =>
    rcases List.eq_nil_or_concat lower with rfl | ⟨lower, g', rfl⟩
    · left; rw [he]; exact pairwise_of_ring_lower_nil hp (.inr rfl)
    · right
      obtain ⟨rfl, -⟩ : f = u ∧ _ := by simpa using he
      obtain rfl : g' = g := by
        rw [he, List.concat_eq_append, ← List.append_assoc, List.getLast?_concat] at hg
        simpa using hg
      simp only [List.concat_eq_append] at *
      have hgf : hi g' ≤ lo f := (List.pairwise_append.mp hp).2.2 g' (by simp) f (by simp)
      exact ⟨(pos g').trans_le hgf, upper, lower, he, hp, hb (by simp)⟩

/-- A new item after the newest one, below the oldest if the ring has been
started over. -/
theorem Ring.snoc_after {x : α} (h : Ring lo hi base (f :: fs))
    (hg : (f :: fs).getLast? = some g) (hlo : hi g ≤ lo x) (hhead : lo g < lo f → hi x ≤ lo f) :
    Ring lo hi base (f :: fs ++ [x]) := by
  rcases h.cases pos hg with h | ⟨hlt, upper, lower, he, hp, hb⟩
  · obtain ⟨ys, hys⟩ : ∃ ys, f :: fs = ys ++ [g] := by
      obtain ⟨ys, hys⟩ := List.getLast?_eq_some_iff.mp hg
      exact ⟨ys, hys⟩
    refine ring_of_pairwise (List.pairwise_append.mpr ⟨h, by simp, fun y hy z hz => ?_⟩)
    rw [List.mem_singleton.mp hz]
    rw [hys] at h hy
    exact (hi_le_of_pairwise pos h hy).trans hlo
  · have hx := hhead hlt
    refine ⟨f :: upper, lower ++ [g] ++ [x], by rw [he]; simp, ?_, fun _ => ?_⟩
    · obtain ⟨hl, hu, hlu⟩ := List.pairwise_append.mp hp
      have hfu : ∀ y ∈ f :: upper, lo f ≤ lo y := by
        intro y hy
        rcases List.mem_cons.mp hy with rfl | hy
        · exact le_rfl
        · exact (pos f).le.trans (List.rel_of_pairwise_cons hu hy)
      refine List.pairwise_append.mpr ⟨List.pairwise_append.mpr ⟨hl, by simp, ?_⟩, hu, ?_⟩
      · intro y hy z hz
        rw [List.mem_singleton.mp hz]
        exact (hi_le_of_pairwise pos hl hy).trans hlo
      · intro y hy z hz
        rcases List.mem_append.mp hy with hy | hy
        · exact hlu y hy z hz
        · rw [List.mem_singleton.mp hy]
          exact hx.trans (hfu z hz)
    · rw [List.head?_append_of_ne_nil _ (by simp)]
      exact hb

/-- A new item at the base, below the oldest, when the ring has not been started
over yet. -/
theorem Ring.snoc_base {x : α} (h : Ring lo hi base (f :: fs))
    (hg : (f :: fs).getLast? = some g) (hx : lo x = base) (hhead : hi x ≤ lo f)
    (hnot : ¬ lo g < lo f) : Ring lo hi base (f :: fs ++ [x]) := by
  rcases h.cases pos hg with h | ⟨hlt, -⟩
  · refine ⟨f :: fs, [x], rfl, ?_, by simp [hx]⟩
    refine List.pairwise_append.mpr ⟨by simp, h, fun y hy z hz => ?_⟩
    rw [List.mem_singleton.mp hy]
    rcases List.mem_cons.mp hz with rfl | hz
    · exact hhead
    · exact hhead.trans ((pos f).le.trans (List.rel_of_pairwise_cons h hz))
  · exact absurd hlt hnot

/-! ### The highest end -/

omit pos in
theorem maxHi_cons : maxHi hi base (f :: fs) = max (hi f) (maxHi hi base fs) := rfl

omit pos in
theorem maxHi_map {e : α → α} (he : ∀ f, hi (e f) = hi f) :
    maxHi hi base (fs.map e) = maxHi hi base fs := by
  induction fs with
  | nil => rfl
  | cons f fs ih => rw [List.map_cons, maxHi_cons, maxHi_cons, ih, he]

omit pos in
theorem le_maxHi (hf : f ∈ fs) : hi f ≤ maxHi hi base fs := by
  induction fs with
  | nil => simp at hf
  | cons g fs ih =>
    rw [maxHi_cons]
    rcases List.mem_cons.mp hf with rfl | hf
    · exact le_max_left _ _
    · exact (ih hf).trans (le_max_right _ _)

omit pos in
theorem maxHi_le {b : β} (hb : base ≤ b) (h : ∀ f ∈ fs, hi f ≤ b) : maxHi hi base fs ≤ b := by
  induction fs with
  | nil => exact hb
  | cons g fs ih =>
    exact max_le (h g (by simp)) (ih fun f hf => h f (by simp [hf]))

omit pos in
theorem maxHi_snoc : maxHi hi base (fs ++ [g]) = max (maxHi hi base fs) (max (hi g) base) := by
  induction fs with
  | nil =>
    simp only [List.nil_append, maxHi_cons]
    exact (max_eq_right (le_max_right _ _)).symm
  | cons f fs ih => rw [List.cons_append, maxHi_cons, ih, maxHi_cons, max_assoc]

/-- In an ordered list the last item has the highest end. -/
theorem maxHi_of_pairwise (h : (fs ++ [g]).Pairwise (Before lo hi)) (hb : base ≤ hi g) :
    maxHi hi base (fs ++ [g]) = hi g :=
  le_antisymm (maxHi_le hb fun _ hf => hi_le_of_pairwise pos h hf) (le_maxHi (by simp))

/-- When the oldest of several items is removed, the highest end is the newest
item's if the removed item had it, and is unchanged otherwise. -/
theorem maxHi_tail (h : Ring lo hi base (f :: fs)) (hg : fs.getLast? = some g) (hb : base ≤ hi g) :
    maxHi hi base fs =
      if maxHi hi base (f :: fs) = hi f then hi g else maxHi hi base (f :: fs) := by
  have hmem : g ∈ fs := List.mem_of_getLast? hg
  have hg' : (f :: fs).getLast? = some g := by
    rw [List.getLast?_cons, hg]; rfl
  split_ifs with heq
  · -- a later item of the same piece would end higher, so the oldest stands alone in `upper`
    have hle : ∀ y ∈ fs, hi y ≤ hi f := fun y hy => heq ▸ le_maxHi (by simp [hy])
    rcases h.cases pos hg' with h | ⟨-, upper, lower, he, hp, -⟩
    · have h₁ : hi f ≤ lo g := List.rel_of_pairwise_cons h hmem
      exact absurd (h₁.trans_lt (pos g)) (not_lt.mpr (hle g hmem))
    · cases upper with
      | nil =>
        obtain rfl : fs = lower ++ [g] := by simpa using he
        exact maxHi_of_pairwise pos (List.pairwise_append.mp hp).1 hb
      | cons u upper =>
        have hu : u ∈ fs := by
          have : fs = u :: upper ++ (lower ++ [g]) := by simpa using he
          rw [this]; simp
        have h₁ : hi f ≤ lo u :=
          List.rel_of_pairwise_cons (List.pairwise_append.mp hp).2.1 (by simp)
        exact absurd (h₁.trans_lt (pos u)) (not_lt.mpr (hle u hu))
  · rw [maxHi_cons] at heq ⊢
    rcases le_total (maxHi hi base fs) (hi f) with hle | hle
    · exact absurd (max_eq_left hle) heq
    · exact (max_eq_right hle).symm

end Positive

end IntervalRing
