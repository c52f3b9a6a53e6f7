import AlephZero.Time.Clock

/-!
# Adding to a time

`a0_clock_add`, on all normalised times, before 1970 too. `a0_time_mono_add` is the same function.

## What is proved

* `checkedClockAdd_eq` — where the seconds of the result fit, no sum overflows.
* **`clockAdd_exact`** — the result is normalised and exactly so much later. So two additions are one
  of the sum, one can be taken back, and a later time or a larger amount gives no earlier result.
-/

namespace AlephZero

/-- A signed sum, `none` on an overflow. -/
def checkedInt64 (x : ℤ) : Option ℤ := if FitsInt64 x then some x else none

/-- `a0_clock_add`, `none` if one of its sums overflows. -/
def checkedClockAdd (ts : Timespec) (addNsec : ℤ) : Option Timespec := do
  let sec ← checkedInt64 (ts.sec + addNsec.tdiv nsPerSec)
  let nsec ← checkedInt64 (ts.nsec + addNsec.tmod nsPerSec)
  if nsPerSec ≤ nsec then
    return ⟨← checkedInt64 (sec + 1), ← checkedInt64 (nsec - nsPerSec)⟩
  else if nsec < 0 then
    return ⟨← checkedInt64 (sec - 1), ← checkedInt64 (nsec + nsPerSec)⟩
  else return ⟨sec, nsec⟩

/-- The seconds of the time `addNsec` later fit. -/
def Reaches (ts : Timespec) (addNsec : ℤ) : Prop := FitsInt64 ((ts.ns + addNsec) / nsPerSec)

namespace Timespec

variable {ts us : Timespec} {addNsec : ℤ}

theorem ns_ofNs (n : ℤ) : (ofNs n).ns = n := Int.ediv_mul_add_emod ..

theorem ofNs_normal {n : ℤ} (h : FitsInt64 (n / nsPerSec)) : (ofNs n).Normal where
  sec_fits := h
  nsec_nonneg := Int.emod_nonneg _ nsPerSec_pos.ne'
  nsec_lt := Int.emod_lt_of_pos _ nsPerSec_pos

/-- Its own seconds fit. -/
theorem reaches_zero (h : ts.Normal) : FitsInt64 (ts.ns / nsPerSec) := by
  have hsec : ts.ns / nsPerSec = ts.sec := congrArg sec (ofNs_ns h)
  rw [hsec]
  exact h.sec_fits

/-- The time so much later. -/
theorem clockAdd_eq_ofNs (h : ts.Normal) (hreach : Reaches ts addNsec) :
    clockAdd ts addNsec = ofNs (ts.ns + addNsec) := by
  rw [clockAdd_eq h, toInt64_eq hreach]
  rfl

end Timespec

open Timespec

variable {ts us : Timespec} {addNsec : ℤ}

theorem checkedInt64_eq {x : ℤ} (h : FitsInt64 x) : checkedInt64 x = some x := if_pos h

/-- The quotient in C and the remainder have the sign of the amount. -/
theorem tdiv_tmod_sign (addNsec : ℤ) :
    0 ≤ addNsec.tdiv nsPerSec ∧ 0 ≤ addNsec.tmod nsPerSec ∨
      addNsec.tdiv nsPerSec ≤ 0 ∧ addNsec.tmod nsPerSec ≤ 0 := by
  rcases Int.le_total 0 addNsec with hpos | hneg
  · exact .inl ⟨Int.tdiv_nonneg hpos nsPerSec_pos.le, Int.tmod_nonneg _ hpos⟩
  · have hdiv := Int.tdiv_nonneg (Int.neg_nonneg_of_nonpos hneg) nsPerSec_pos.le
    have hmod := Int.tmod_nonneg nsPerSec (Int.neg_nonneg_of_nonpos hneg)
    rw [Int.neg_tdiv] at hdiv
    rw [Int.neg_tmod] at hmod
    exact .inr ⟨Int.nonpos_of_neg_nonneg hdiv, Int.nonpos_of_neg_nonneg hmod⟩

/-- The sum of the seconds lies between the seconds of the time and those of the result. -/
theorem checkedClockAdd_eq (h : ts.Normal) (hreach : Reaches ts addNsec) :
    checkedClockAdd ts addNsec = some (clockAdd ts addNsec) := by
  obtain ⟨⟨hsec, hsec'⟩, hlo, hhi⟩ := h
  have hdiv : addNsec.tdiv nsPerSec * nsPerSec + addNsec.tmod nsPerSec = addNsec := Int.tdiv_mul_add_tmod ..
  have hmod : addNsec.tmod nsPerSec < nsPerSec := Int.tmod_lt_of_pos _ nsPerSec_pos
  have hmod' : -nsPerSec < addNsec.tmod nsPerSec := Int.lt_tmod_of_pos _ nsPerSec_pos
  have hsign := tdiv_tmod_sign addNsec
  rw [Reaches, Timespec.ns] at hreach
  obtain ⟨hreach, hreach'⟩ := hreach
  simp only [checkedClockAdd, clockAdd]
  generalize addNsec.tdiv nsPerSec = q at *
  generalize addNsec.tmod nsPerSec = r at *
  have hsecond : nsPerSec = 1000000000 := rfl
  rw [hsecond] at hreach hreach' hdiv hmod hmod'
  have hfits : FitsInt64 (ts.sec + q) := ⟨by omega, by omega⟩
  have hfits' : FitsInt64 (ts.nsec + r) := ⟨by omega, by omega⟩
  rw [checkedInt64_eq hfits, checkedInt64_eq hfits', toInt64_eq hfits, toInt64_eq hfits']
  simp only [Option.bind_eq_bind, Option.bind_some, Option.pure_def]
  by_cases hover : nsPerSec ≤ ts.nsec + r
  · have hcarry : FitsInt64 (ts.sec + q + 1) := ⟨by omega, by omega⟩
    rw [if_pos hover, if_pos hover, checkedInt64_eq hcarry, checkedInt64_eq ⟨by omega, by omega⟩, toInt64_eq hcarry]
    rfl
  rw [if_neg hover, if_neg hover]
  by_cases hunder : ts.nsec + r < 0
  · have hborrow : FitsInt64 (ts.sec + q - 1) := ⟨by omega, by omega⟩
    rw [if_pos hunder, if_pos hunder, checkedInt64_eq hborrow, checkedInt64_eq ⟨by omega, by omega⟩, toInt64_eq hborrow]
    rfl
  · rw [if_neg hunder, if_neg hunder]

/-- **Adding is exact**, and what follows from it. -/
theorem clockAdd_exact (ts : Timespec) (h : ts.Normal) (addNsec : ℤ) (hreach : Reaches ts addNsec) :
    checkedClockAdd ts addNsec = some (clockAdd ts addNsec) ∧
      (clockAdd ts addNsec).Normal ∧ (clockAdd ts addNsec).ns = ts.ns + addNsec ∧
      (∀ more, Reaches ts (addNsec + more) → clockAdd (clockAdd ts addNsec) more = clockAdd ts (addNsec + more)) ∧
      clockAdd (clockAdd ts addNsec) (-addNsec) = ts ∧
      (∀ us : Timespec, us.Normal → Reaches us addNsec → us.Before ts →
        (clockAdd us addNsec).Before (clockAdd ts addNsec)) ∧
      ∀ less, Reaches ts less → less < addNsec → (clockAdd ts less).Before (clockAdd ts addNsec) := by
  have hsum := clockAdd_eq_ofNs h hreach
  have hnormal : (clockAdd ts addNsec).Normal := hsum ▸ ofNs_normal hreach
  have hns : (clockAdd ts addNsec).ns = ts.ns + addNsec := by rw [hsum, ns_ofNs]
  have hagain : ∀ more, Reaches ts (addNsec + more) →
      clockAdd (clockAdd ts addNsec) more = ofNs (ts.ns + (addNsec + more)) := by
    intro more hmore
    have hreach' : Reaches (clockAdd ts addNsec) more := by
      rw [Reaches, hns, Int.add_assoc]
      exact hmore
    rw [clockAdd_eq_ofNs hnormal hreach', hns, Int.add_assoc]
  refine ⟨checkedClockAdd_eq h hreach, hnormal, hns, ?_, ?_, ?_, ?_⟩
  · intro more hmore
    rw [hagain more hmore, clockAdd_eq_ofNs h hmore]
  · have hback : Reaches ts (addNsec + -addNsec) := by
      rw [Reaches, Int.add_right_neg, Int.add_zero]
      exact reaches_zero h
    rw [hagain _ hback, Int.add_right_neg, Int.add_zero, ofNs_ns h]
  · intro us hus hreach' hbefore
    rw [hsum, clockAdd_eq_ofNs hus hreach', ofNs_before_iff]
    rw [before_iff hus h] at hbefore
    exact Int.add_lt_add_right hbefore addNsec
  · intro less hreach' hlt
    rw [hsum, clockAdd_eq_ofNs h hreach', ofNs_before_iff]
    exact Int.add_lt_add_left hlt ts.ns

/-- From a nanosecond before 1970, a second and a half back. -/
theorem clockAdd_exact_negative :
    (Timespec.mk (-1) 999999999).Normal ∧ Reaches ⟨-1, 999999999⟩ (-1500000000) ∧
      (clockAdd ⟨-1, 999999999⟩ (-1500000000)).ns = -1500000001 := by
  have hnormal : (Timespec.mk (-1) 999999999).Normal := ⟨by decide, by decide, by decide⟩
  have hreach : Reaches ⟨-1, 999999999⟩ (-1500000000) := by
    rw [Reaches]
    decide
  exact ⟨hnormal, hreach, (clockAdd_exact _ hnormal _ hreach).2.2.1⟩

end AlephZero
