import Mathlib.Data.Fintype.EquivFin
import Mathlib.Data.Finset.Interval
import Mathlib.Data.Int.Interval
import Mathlib.Order.WellFounded
import Mathlib.Order.RelClasses

/-!
# Comparisons

A comparison gives a number, whose sign says how two keys are ordered, or nothing.

## What is proved

* `TotalOn.of_linear` — a comparison whose sign follows the images of the keys in a linear
  order is a total order.
* `totalOn_circle_iff` — the balanced difference of numbers modulo `2 * h` is a total order
  on a set of keys if and only if the numbers lie within half of the circle, each at a place
  of its own.
-/

namespace AlephZero

namespace Comparison

variable {K : Type*}

/-- The first key is less than the second. -/
def Less (cmp : K → K → Option ℤ) (a b : K) : Prop := ∃ c < 0, cmp a b = some c

/-- The first key is greater than the second. -/
def Greater (cmp : K → K → Option ℤ) (a b : K) : Prop := ∃ c > 0, cmp a b = some c

/-- The comparison of keys of the set is a total order. -/
structure TotalOn (cmp : K → K → Option ℤ) (S : Set K) : Prop where
  defined : ∀ a ∈ S, ∀ b ∈ S, ∃ c, cmp a b = some c
  zero : ∀ a ∈ S, ∀ b ∈ S, cmp a b = some 0 ↔ a = b
  antisymm : ∀ a ∈ S, ∀ b ∈ S, Less cmp a b ↔ Greater cmp b a
  trans : ∀ a ∈ S, ∀ b ∈ S, ∀ c ∈ S, Less cmp a b → Less cmp b c → Less cmp a c

variable {cmp : K → K → Option ℤ} {S : Set K}

/-- **A comparison that follows a linear order** is a total order. -/
theorem TotalOn.of_linear {α : Type*} [LinearOrder α] (f : K → α) (hinj : Set.InjOn f S)
    (h : ∀ a ∈ S, ∀ b ∈ S, ∃ c, cmp a b = some c ∧ (c < 0 ↔ f a < f b) ∧ (c = 0 ↔ f a = f b)) :
    TotalOn cmp S := by
  have hless : ∀ a ∈ S, ∀ b ∈ S, (Less cmp a b ↔ f a < f b) := by
    intro a ha b hb
    obtain ⟨c, hc, hlt, -⟩ := h a ha b hb
    constructor
    · rintro ⟨d, hd, hcd⟩
      rw [hc, Option.some.injEq] at hcd
      exact hlt.mp (hcd ▸ hd)
    · intro hab
      exact ⟨c, hlt.mpr hab, hc⟩
  have hgreater : ∀ a ∈ S, ∀ b ∈ S, (Greater cmp a b ↔ f b < f a) := by
    intro a ha b hb
    obtain ⟨c, hc, hlt, heq⟩ := h a ha b hb
    constructor
    · rintro ⟨d, hd, hcd⟩
      rw [hc, Option.some.injEq] at hcd
      subst hcd
      apply lt_of_le_of_ne
      · exact not_lt.mp fun hab => absurd (hlt.mpr hab) (not_lt.mpr hd.le)
      · exact fun hba => absurd (heq.mpr hba.symm) hd.ne'
    · intro hba
      refine ⟨c, ?_, hc⟩
      rcases lt_trichotomy c 0 with hneg | hzero | hpos
      · exact absurd (hlt.mp hneg) (not_lt.mpr hba.le)
      · exact absurd (heq.mp hzero) hba.ne'
      · exact hpos
  refine ⟨?_, ?_, ?_, ?_⟩
  · intro a ha b hb
    obtain ⟨c, hc, -⟩ := h a ha b hb
    exact ⟨c, hc⟩
  · intro a ha b hb
    obtain ⟨c, hc, -, heq⟩ := h a ha b hb
    rw [hc, Option.some.injEq, heq]
    exact ⟨fun hab => hinj ha hb hab, fun hab => congrArg f hab⟩
  · intro a ha b hb
    rw [hless a ha b hb, hgreater b hb a ha]
  · intro a ha b hb c hc
    rw [hless a ha b hb, hless b hb c hc, hless a ha c hc]
    exact lt_trans

namespace TotalOn

/-- Two keys that are not equal are less the one way or the other. -/
theorem less_or_less (h : TotalOn cmp S) {a b : K} (ha : a ∈ S) (hb : b ∈ S) (hne : a ≠ b) :
    Less cmp a b ∨ Less cmp b a := by
  obtain ⟨c, hc⟩ := h.defined a ha b hb
  rcases lt_trichotomy c 0 with hneg | rfl | hpos
  · exact .inl ⟨c, hneg, hc⟩
  · exact absurd ((h.zero a ha b hb).mp hc) hne
  · exact .inr ((h.antisymm b hb a ha).mpr ⟨c, hpos, hc⟩)

/-- No key is less than itself. -/
theorem not_less_self (h : TotalOn cmp S) {a : K} (ha : a ∈ S) : ¬ Less cmp a a := by
  rintro ⟨c, hneg, hc⟩
  rw [(h.zero a ha a ha).mpr rfl, Option.some.injEq] at hc
  exact absurd hc hneg.ne'

/-- Of finitely many keys, one is the least. -/
theorem exists_least (h : TotalOn cmp S) (hfin : S.Finite) (hne : S.Nonempty) :
    ∃ c ∈ S, ∀ x ∈ S, x ≠ c → Less cmp c x := by
  let r : S → S → Prop := fun a b => Less cmp a.1 b.1
  have : Finite S := hfin
  have : IsTrans S r := ⟨fun a b c hab hbc => h.trans a.1 a.2 b.1 b.2 c.1 c.2 hab hbc⟩
  have : Std.Irrefl r := ⟨fun a => h.not_less_self a.2⟩
  have hwf : WellFounded r := Finite.wellFounded_of_trans_of_irrefl r
  obtain ⟨c, -, hmin⟩ := hwf.has_min Set.univ ⟨⟨hne.some, hne.some_mem⟩, trivial⟩
  refine ⟨c.1, c.2, fun x hx hxc => ?_⟩
  rcases h.less_or_less hx c.2 hxc with hless | hless
  · exact absurd hless (hmin ⟨x, hx⟩ trivial)
  · exact hless

end TotalOn

/-! ### On a circle -/

section Circle

variable {h : ℕ} {g : K → ℤ}

/-- A balanced remainder that is positive is in the first half. -/
theorem emod_lt_of_bmod_pos (hh : 0 < h) {x : ℤ} (hpos : 0 < x.bmod (2 * h)) : x % (2 * h : ℕ) < h := by
  have hlt := Int.emod_lt_of_pos x (b := ((2 * h : ℕ) : ℤ)) (by omega)
  rw [Int.bmod_def] at hpos
  split_ifs at hpos with hhalf
  · have hdiv : (((2 * h : ℕ) : ℤ) + 1) / 2 = h := by omega
    rwa [hdiv] at hhalf
  · omega

/-- Numbers in the first half from `c` on are ordered as their distances from it. -/
theorem bmod_sub_eq (hh : 0 < h) {x y c : ℤ} (hx : (x - c) % (2 * h : ℕ) < h) (hy : (y - c) % (2 * h : ℕ) < h) :
    (x - y).bmod (2 * h) = (x - c) % (2 * h : ℕ) - (y - c) % (2 * h : ℕ) := by
  have hpos : ((2 * h : ℕ) : ℤ) ≠ 0 := by omega
  have hx₀ := Int.emod_nonneg (x - c) hpos
  have hy₀ := Int.emod_nonneg (y - c) hpos
  calc
    _ = ((x - c) - (y - c)).bmod (2 * h) := by rw [sub_sub_sub_cancel_right]
    _ = ((x - c) % (2 * h : ℕ) - (y - c) % (2 * h : ℕ)).bmod (2 * h) := by
      rw [Int.emod_sub_bmod, Int.sub_emod_bmod]
    _ = _ := by
      apply Int.bmod_eq_of_le_mul_two
      · omega
      · omega

/-- Numbers at one place. -/
theorem emod_eq_iff_bmod_sub {x y : ℤ} : x % (2 * h : ℕ) = y % (2 * h : ℕ) ↔ (x - y).bmod (2 * h) = 0 := by
  rw [Int.emod_eq_emod_iff_emod_sub_eq_zero, ← Int.dvd_iff_emod_eq_zero, Int.dvd_iff_bmod_eq_zero]

/-- Keys within half of the circle, each at a place of its own, are ordered as they come. -/
theorem totalOn_circle_of (hcmp : ∀ a ∈ S, ∀ b ∈ S, cmp a b = some ((g a - g b).bmod (2 * h))) (hh : 0 < h)
    (hinj : Set.InjOn (fun a => g a % (2 * h : ℕ)) S) (c : ℤ) (hhalf : ∀ a ∈ S, (g a - c) % (2 * h : ℕ) < h) :
    TotalOn cmp S := by
  apply TotalOn.of_linear (fun a => (g a - c) % (2 * h : ℕ))
  · intro a ha b hb hab
    apply hinj ha hb
    have hsub := emod_eq_iff_bmod_sub.mp hab
    rw [sub_sub_sub_cancel_right] at hsub
    exact emod_eq_iff_bmod_sub.mpr hsub
  · intro a ha b hb
    refine ⟨_, hcmp a ha b hb, ?_, ?_⟩
    · rw [bmod_sub_eq hh (hhalf a ha) (hhalf b hb)]
      exact sub_neg
    · rw [bmod_sub_eq hh (hhalf a ha) (hhalf b hb)]
      exact sub_eq_zero

/-- **The balanced difference is a total order** if and only if all keys lie within half of
the circle, each at a place of its own. -/
theorem totalOn_circle_iff (hcmp : ∀ a ∈ S, ∀ b ∈ S, cmp a b = some ((g a - g b).bmod (2 * h))) (hh : 0 < h)
    (hne : S.Nonempty) : TotalOn cmp S ↔
      Set.InjOn (fun a => g a % (2 * h : ℕ)) S ∧ ∃ c ∈ S, ∀ a ∈ S, (g a - g c) % (2 * h : ℕ) < h := by
  have hpos : (0 : ℤ) < (2 * h : ℕ) := by omega
  constructor
  · intro htotal
    have hinj : Set.InjOn (fun a => g a % (2 * h : ℕ)) S := by
      intro a ha b hb hab
      apply (htotal.zero a ha b hb).mp
      rw [hcmp a ha b hb, emod_eq_iff_bmod_sub.mp hab]
    have hfin : S.Finite := by
      apply Set.Finite.of_injOn (t := Set.Ico 0 ((2 * h : ℕ) : ℤ)) _ hinj (Set.finite_Ico _ _)
      exact fun a _ => ⟨Int.emod_nonneg _ hpos.ne', Int.emod_lt_of_pos _ hpos⟩
    obtain ⟨c, hc, hleast⟩ := htotal.exists_least hfin hne
    refine ⟨hinj, c, hc, fun a ha => ?_⟩
    by_cases hac : a = c
    · rw [hac, sub_self, Int.zero_emod]
      omega
    · obtain ⟨d, hd, hcd⟩ := (htotal.antisymm c hc a ha).mp (hleast a ha hac)
      rw [hcmp a ha c hc, Option.some.injEq] at hcd
      apply emod_lt_of_bmod_pos hh
      rw [hcd]
      exact hd
  · rintro ⟨hinj, c, -, hhalf⟩
    exact totalOn_circle_of hcmp hh hinj (g c) hhalf

end Circle

end Comparison

end AlephZero
