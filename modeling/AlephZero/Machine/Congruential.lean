import Mathlib

/-!
# Linear congruential generators

The map `x ↦ a * x + c`, and what is left of it modulo `2 ^ k`.

## What is proved

* `iterate_modEq_iff` — if `a` is one more than a multiple of four and `c` is odd, the map comes back
  after `2 ^ k` steps, and not before.
* `eq_zero_of_short` — the spectral test: where the lattice of the multiplier has no short vectors, two
  differences that follow on each other are not both small.
-/

namespace Congruential

variable {a c x y : ℤ} {k m n : ℕ}

/-- A step of the generator. -/
def step (a c x : ℤ) : ℤ := a * x + c

theorem iterate_sub (n : ℕ) : (step a c)^[n] x - x = (∑ i ∈ Finset.range n, a ^ i) * ((a - 1) * x + c) := by
  induction n with
  | zero => simp
  | succ n ih =>
    have hx : (step a c)^[n] x = x + (∑ i ∈ Finset.range n, a ^ i) * ((a - 1) * x + c) := by linarith
    have hgeom : (∑ i ∈ Finset.range n, a ^ i) * (a - 1) = a ^ n - 1 := geom_sum_mul a n
    rw [Function.iterate_succ_apply', step, hx, Finset.sum_range_succ]
    linear_combination ((a - 1) * x + c) * hgeom

/-- Differences are only multiplied. -/
theorem iterate_sub_iterate (n : ℕ) : (step a c)^[n] x - (step a c)^[n] y = a ^ n * (x - y) := by
  induction n with
  | zero => simp
  | succ n ih =>
    rw [Function.iterate_succ_apply', Function.iterate_succ_apply', step, step, pow_succ']
    linear_combination a * ih

/-! ### The period -/

theorem pow_emod_four (ha : a % 4 = 1) (n : ℕ) : a ^ n % 4 = 1 := by
  have hpow : a ^ n ≡ 1 ^ n [ZMOD 4] := Int.ModEq.pow n ha
  rwa [one_pow] at hpow

/-- An odd factor does not count. -/
theorem dvd_mul_odd (s u : ℤ) : (2 : ℤ) ^ k ∣ s * (2 * u + 1) ↔ 2 ^ k ∣ s := by
  have hcoprime : IsCoprime ((2 : ℤ) ^ k) (2 * u + 1) := IsCoprime.pow_left ⟨-u, 1, by ring⟩
  exact ⟨hcoprime.dvd_of_dvd_mul_right, fun h => h.mul_right _⟩

theorem sum_emod_two (ha : a % 4 = 1) (n : ℕ) : (∑ i ∈ Finset.range n, a ^ i) % 2 = n % 2 := by
  induction n with
  | zero => rfl
  | succ n ih =>
    have hpow := pow_emod_four ha n
    rw [Finset.sum_range_succ]
    push_cast
    omega

theorem sum_double (m : ℕ) :
    ∑ i ∈ Finset.range (m + m), a ^ i = (∑ i ∈ Finset.range m, a ^ i) * (1 + a ^ m) := by
  have hsecond : ∑ i ∈ Finset.range m, a ^ (m + i) = (∑ i ∈ Finset.range m, a ^ i) * a ^ m := by
    rw [Finset.sum_mul]
    exact Finset.sum_congr rfl fun i _ => by rw [pow_add, mul_comm]
  rw [Finset.sum_range_add, hsecond]
  ring

/-- The sum of the powers has as many factors of two as their number. -/
theorem dvd_sum_iff (ha : a % 4 = 1) : (2 : ℤ) ^ k ∣ ∑ i ∈ Finset.range n, a ^ i ↔ 2 ^ k ∣ n := by
  induction k generalizing n with
  | zero => simp
  | succ k ih =>
    have hparity := sum_emod_two ha n
    rcases Nat.even_or_odd n with ⟨m, rfl⟩ | hodd
    · -- the second half of the sum is the first one, times a number that is even once
      obtain ⟨u, hu⟩ : ∃ u, 1 + a ^ m = 2 * (2 * u + 1) := ⟨(1 + a ^ m) / 4, by have := pow_emod_four ha m; omega⟩
      have hsum : ∑ i ∈ Finset.range (m + m), a ^ i = 2 * ((∑ i ∈ Finset.range m, a ^ i) * (2 * u + 1)) := by
        rw [sum_double, hu]
        ring
      rw [hsum, ← two_mul, pow_succ', pow_succ', mul_dvd_mul_iff_left two_ne_zero, dvd_mul_odd, ih,
        Nat.mul_dvd_mul_iff_left Nat.zero_lt_two]
    · have hn : ¬ 2 ^ (k + 1) ∣ n := fun h =>
        Nat.not_even_iff_odd.mpr hodd (even_iff_two_dvd.mpr ((dvd_pow_self 2 k.succ_ne_zero).trans h))
      have hsum : ¬ (2 : ℤ) ^ (k + 1) ∣ ∑ i ∈ Finset.range n, a ^ i := fun h => by
        have htwo := Int.emod_eq_zero_of_dvd ((dvd_pow_self (2 : ℤ) k.succ_ne_zero).trans h)
        obtain ⟨m, hm⟩ := hodd
        omega
      exact iff_of_false hsum hn

/-- The generator comes back after `2 ^ k` steps, and not before. -/
theorem iterate_modEq_iff (ha : a % 4 = 1) (hc : c % 2 = 1) :
    (step a c)^[n] x ≡ x [ZMOD 2 ^ k] ↔ 2 ^ k ∣ n := by
  obtain ⟨u, hu⟩ : ∃ u, (a - 1) * x + c = 2 * u + 1 := by
    obtain ⟨b, rfl⟩ : ∃ b, a = 4 * b + 1 := ⟨a / 4, by omega⟩
    obtain ⟨d, rfl⟩ : ∃ d, c = 2 * d + 1 := ⟨c / 2, by omega⟩
    exact ⟨2 * b * x + d, by ring⟩
  rw [Int.modEq_comm, Int.modEq_iff_dvd, iterate_sub, hu, dvd_mul_odd, dvd_sum_iff ha]

/-- Steps are injective. -/
theorem modEq_of_iterate (ha : a % 4 = 1) (h : (step a c)^[n] x ≡ (step a c)^[n] y [ZMOD 2 ^ k]) :
    x ≡ y [ZMOD 2 ^ k] := by
  obtain ⟨u, hu⟩ : ∃ u, a ^ n = 2 * u + 1 := ⟨a ^ n / 2, by have := pow_emod_four ha n; omega⟩
  rw [Int.modEq_comm, Int.modEq_iff_dvd] at h ⊢
  rwa [iterate_sub_iterate, hu, mul_comm, dvd_mul_odd] at h

/-- So two places of a stream are the same only if they are `2 ^ k` steps apart. -/
theorem iterate_modEq_iterate (ha : a % 4 = 1) (hc : c % 2 = 1)
    (h : (step a c)^[m] x ≡ (step a c)^[n] x [ZMOD 2 ^ k]) : m ≡ n [MOD 2 ^ k] := by
  rcases le_total m n with hle | hle
  · rw [← Nat.sub_add_cancel hle, Nat.add_comm, Function.iterate_add_apply] at h
    have hback := (iterate_modEq_iff ha hc).mp (modEq_of_iterate ha h).symm
    exact (Nat.modEq_iff_dvd' hle).mpr hback
  · rw [← Nat.sub_add_cancel hle, Nat.add_comm, Function.iterate_add_apply] at h
    have hback := (iterate_modEq_iff ha hc).mp (modEq_of_iterate ha h)
    exact ((Nat.modEq_iff_dvd' hle).mpr hback).symm

/-! ### The lattice -/

/-- The numbers `d` and `e` are related by `u` and `v` when `e` is `A * d`, and the coefficients are short. -/
structure Short (M A B u v : ℤ) : Prop where
  relates : M ∣ u + v * A
  lt : (|u| + |v|) * B < M

/-- A short relation holds of small numbers as they are. -/
theorem Short.eq_zero {M A B d e u v : ℤ} (h : Short M A B u v) (hA : M ∣ e - A * d) (hd : |d| < B) (he : |e| < B) :
    u * d + v * e = 0 := by
  have hdvd : M ∣ u * d + v * e := by
    have hsum : u * d + v * e = (u + v * A) * d + v * (e - A * d) := by ring
    rw [hsum]
    exact dvd_add (h.relates.mul_right _) (hA.mul_left _)
  have habs : |u * d + v * e| < M := by
    calc |u * d + v * e| ≤ |u| * |d| + |v| * |e| := by
          rw [← abs_mul, ← abs_mul]
          exact abs_add_le _ _
      _ ≤ |u| * B + |v| * B := by gcongr
      _ = (|u| + |v|) * B := by ring
      _ < M := h.lt
  exact Int.eq_zero_of_abs_lt_dvd hdvd habs

/-- Where there are two short relations, only zero is small, and small after it is multiplied. -/
theorem eq_zero_of_short {M A B d e u v u' v' : ℤ} (h : Short M A B u v) (h' : Short M A B u' v')
    (hdet : u * v' - u' * v ≠ 0) (hA : M ∣ e - A * d) (hd : |d| < B) (he : |e| < B) : d = 0 := by
  have hprod : (u * v' - u' * v) * d = 0 := by
    linear_combination v' * h.eq_zero hA hd he - v * h'.eq_zero hA hd he
  exact (mul_eq_zero.mp hprod).resolve_left hdet

end Congruential
