import AlephZero.Err
import Mathlib.Tactic.Ring
import Mathlib.Data.Int.ModEq

/-!
# Clocks

`clock.h`, and the test of `a0_transport_timedwait` for a timeout. Seconds and nanoseconds
are signed words of 64 bits; a sum, a difference or a product that does not fit wraps around.

## What is proved

* `clockAdd_eq` — adding nanoseconds to a time of a clock gives the time so much later, with
  the seconds wrapped around.
* `clockConvert_eq` — a deadline is moved by how far away it is, in nanoseconds wrapped
  around to 64 bits.
* `timeouts_exact_iff` — the test for a timeout is right if and only if the two times, in
  nanoseconds, compare as they do in their own blocks of 2^64, and a deadline is converted
  right if and only if it is less than 2^63 nanoseconds away.
-/

namespace AlephZero

/-- `NS_PER_SEC` -/
def nsPerSec : ℤ := 1000000000

theorem nsPerSec_pos : 0 < nsPerSec := by decide

/-- What fits in an `int64_t`. -/
def FitsInt64 (x : ℤ) : Prop := -2 ^ 63 ≤ x ∧ x < 2 ^ 63

instance (x : ℤ) : Decidable (FitsInt64 x) := inferInstanceAs (Decidable (_ ∧ _))

/-- An `int64_t`, wrapped around. -/
def toInt64 (x : ℤ) : ℤ := (x + 2 ^ 63) % 2 ^ 64 - 2 ^ 63

/-- A `uint64_t`, wrapped around. -/
def toUInt64 (x : ℤ) : ℤ := x % 2 ^ 64

/-- `timespec_t` -/
@[ext]
structure Timespec where
  sec : ℤ
  nsec : ℤ
  deriving DecidableEq

namespace Timespec

/-- In nanoseconds. -/
def ns (ts : Timespec) : ℤ := ts.sec * nsPerSec + ts.nsec

/-- The normalised time of so many nanoseconds. -/
def ofNs (n : ℤ) : Timespec := ⟨n / nsPerSec, n % nsPerSec⟩

/-- Earlier, by the seconds and then by the nanoseconds. -/
def Before (ts us : Timespec) : Prop := ts.sec < us.sec ∨ ts.sec = us.sec ∧ ts.nsec < us.nsec

instance (ts us : Timespec) : Decidable (ts.Before us) := inferInstanceAs (Decidable (_ ∨ _))

end Timespec

/-- A `timespec_t` whose nanoseconds are less than a second. -/
structure Timespec.Normal (ts : Timespec) : Prop where
  sec_fits : FitsInt64 ts.sec
  nsec_nonneg : 0 ≤ ts.nsec
  nsec_lt : ts.nsec < nsPerSec

/-- A time of a clock, or an absolute deadline: normalised and not negative. -/
structure Instant extends Timespec where
  sec_nonneg : 0 ≤ sec
  sec_fits : FitsInt64 sec
  nsec_nonneg : 0 ≤ nsec
  nsec_lt : nsec < nsPerSec

theorem Instant.normal (ts : Instant) : ts.toTimespec.Normal := ⟨ts.sec_fits, ts.nsec_nonneg, ts.nsec_lt⟩

/-- `a0_clock_add` -/
def clockAdd (ts : Timespec) (addNsec : ℤ) : Timespec :=
  let sec := toInt64 (ts.sec + addNsec.tdiv nsPerSec)
  let nsec := toInt64 (ts.nsec + addNsec.tmod nsPerSec)
  if nsPerSec ≤ nsec then ⟨toInt64 (sec + 1), nsec - nsPerSec⟩
  else if nsec < 0 then ⟨toInt64 (sec - 1), nsec + nsPerSec⟩
  else ⟨sec, nsec⟩

/-- `a0_clock_convert`, with what `a0_clock_now` gives for the two clocks. -/
def clockConvert (origNow : Except Err Timespec) (origTs : Timespec) (targetNow : Except Err Timespec) :
    Except Err Timespec := do
  let origNow ← origNow
  let targetNow ← targetNow
  let addNsec := toInt64 ((origTs.sec - origNow.sec) * nsPerSec + (origTs.nsec - origNow.nsec))
  return clockAdd targetNow addNsec

/-- `a0_transport_timedwait_istimeout`, with the time it reads. -/
def timedwaitIstimeout (now : Timespec) (timeout : Option Timespec) : Bool :=
  match timeout with
  | none => false
  | some timeout =>
    let nowNs := toUInt64 (now.sec * nsPerSec + now.nsec)
    let timeoutNs := toUInt64 (timeout.sec * nsPerSec + timeout.nsec)
    decide (timeoutNs ≤ nowNs)

/-! ### Times in nanoseconds -/

theorem toInt64_eq {x : ℤ} (h : FitsInt64 x) : toInt64 x = x := by
  obtain ⟨hlo, hhi⟩ := h
  rw [toInt64]
  omega

namespace Timespec

/-- The order of normalised times is that of their nanoseconds. -/
theorem before_iff {ts us : Timespec} (hts : ts.Normal) (hus : us.Normal) : ts.Before us ↔ ts.ns < us.ns := by
  obtain ⟨-, hts, hts'⟩ := hts
  obtain ⟨-, hus, hus'⟩ := hus
  simp only [Before, ns, nsPerSec] at *
  omega

theorem ofNs_ns {ts : Timespec} (h : ts.Normal) : ofNs ts.ns = ts := by
  obtain ⟨-, hlo, hhi⟩ := h
  ext
  · simp only [ofNs, ns, nsPerSec] at *
    omega
  · simp only [ofNs, ns, nsPerSec] at *
    omega

/-- An instant is less than 2^63 seconds in. -/
theorem ns_bounds (ts : Instant) : 0 ≤ ts.ns ∧ ts.ns < 2 ^ 63 * nsPerSec := by
  have hsec := ts.sec_nonneg
  have hfits := ts.sec_fits.2
  have hlo := ts.nsec_nonneg
  have hhi := ts.nsec_lt
  simp only [ns, nsPerSec] at *
  omega

end Timespec

open Timespec

/-- The quotient in C rounds to zero; the branches put the nanoseconds back in their range. -/
theorem clockAdd_eq {ts : Timespec} (h : ts.Normal) (addNsec : ℤ) :
    clockAdd ts addNsec = ⟨toInt64 ((ts.ns + addNsec) / nsPerSec), (ts.ns + addNsec) % nsPerSec⟩ := by
  obtain ⟨-, hlo, hhi⟩ := h
  have hdiv : addNsec.tdiv nsPerSec * nsPerSec + addNsec.tmod nsPerSec = addNsec := Int.tdiv_mul_add_tmod ..
  have hmod : addNsec.tmod nsPerSec < nsPerSec := Int.tmod_lt_of_pos _ nsPerSec_pos
  have hmod' : -nsPerSec < addNsec.tmod nsPerSec := Int.lt_tmod_of_pos _ nsPerSec_pos
  simp only [clockAdd]
  generalize addNsec.tdiv nsPerSec = q at *
  generalize addNsec.tmod nsPerSec = r at *
  have hnsec : toInt64 (ts.nsec + r) = ts.nsec + r := by
    apply toInt64_eq
    simp only [FitsInt64, nsPerSec] at *
    omega
  rw [hnsec]
  split_ifs with hover hunder
  all_goals
    rw [Timespec.mk.injEq]
    simp only [ns, nsPerSec, toInt64] at *
    omega

/-- How far away the deadline is decides what is added. -/
theorem clockConvert_eq (origNow origTs targetNow : Timespec) :
    clockConvert (.ok origNow) origTs (.ok targetNow) =
      .ok (clockAdd targetNow (toInt64 (origTs.ns - origNow.ns))) := by
  have hsub : (origTs.sec - origNow.sec) * nsPerSec + (origTs.nsec - origNow.nsec) = origTs.ns - origNow.ns := by
    rw [ns, ns]
    ring
  rw [← hsub]
  rfl

/-! ### Deadlines -/

section Deadline

variable (now origNow targetNow timeout : Instant)

/-- The deadline on the other clock, in nanoseconds. -/
def due : ℤ := targetNow.ns + (timeout.ns - origNow.ns)

/-- It is a time of 64 bits. -/
def Representable : Prop := FitsInt64 (due origNow targetNow timeout / nsPerSec)

/-- What the arithmetic of a wait has to give: whether it is time, and the deadline on the other clock. -/
structure Exact : Prop where
  istimeout : timedwaitIstimeout now.toTimespec (some timeout.toTimespec) = true ↔ ¬ now.Before timeout.toTimespec
  convert : Representable origNow targetNow timeout →
    clockConvert (.ok origNow.toTimespec) timeout.toTimespec (.ok targetNow.toTimespec) =
      .ok (ofNs (due origNow targetNow timeout))

/-- In nanoseconds, the two times are in one block of 2^64, or the one in the later block is
also the later one within the blocks. -/
def WrapAlike : Prop :=
  now.ns / 2 ^ 64 = timeout.ns / 2 ^ 64 ∨
    timeout.ns / 2 ^ 64 < now.ns / 2 ^ 64 ∧ timeout.ns % 2 ^ 64 ≤ now.ns % 2 ^ 64 ∨
      now.ns / 2 ^ 64 < timeout.ns / 2 ^ 64 ∧ now.ns % 2 ^ 64 < timeout.ns % 2 ^ 64

theorem istimeout_iff :
    (timedwaitIstimeout now.toTimespec (some timeout.toTimespec) = true ↔ ¬ now.Before timeout.toTimespec) ↔
      WrapAlike now timeout := by
  rw [before_iff now.normal timeout.normal, timedwaitIstimeout, decide_eq_true_iff, ← ns, ← ns, toUInt64, toUInt64,
    WrapAlike]
  omega

/-- What is added is congruent to the distance, and no other number so near is. -/
theorem clockConvert_iff (h : Representable origNow targetNow timeout) :
    clockConvert (.ok origNow.toTimespec) timeout.toTimespec (.ok targetNow.toTimespec) =
        .ok (ofNs (due origNow targetNow timeout)) ↔ FitsInt64 (timeout.ns - origNow.ns) := by
  have htimeout := ns_bounds timeout
  have horig := ns_bounds origNow
  rw [clockConvert_eq, clockAdd_eq targetNow.normal, Except.ok.injEq, ofNs, Timespec.mk.injEq]
  unfold Representable due at *
  constructor
  · rintro ⟨hsec, hnsec⟩
    simp only [FitsInt64, toInt64, nsPerSec] at *
    omega
  · intro hnear
    rw [toInt64_eq hnear, toInt64_eq h]
    exact ⟨rfl, rfl⟩

/-- The order of times is that of what they are in nanoseconds. -/
theorem ofNs_before_iff (m n : ℤ) : (ofNs m).Before (ofNs n) ↔ m < n := by
  simp only [Before, ofNs, nsPerSec]
  omega

/-- **The arithmetic of a wait is exact** if and only if the two times wrap alike and the
deadline is near; a later one of two such deadlines is never converted to an earlier one. -/
theorem timeouts_exact_iff :
    (Exact now origNow targetNow timeout ↔
      WrapAlike now timeout ∧ (Representable origNow targetNow timeout → FitsInt64 (timeout.ns - origNow.ns))) ∧
    ∀ later : Instant, ¬ later.Before timeout.toTimespec →
      Representable origNow targetNow timeout → FitsInt64 (timeout.ns - origNow.ns) →
      Representable origNow targetNow later → FitsInt64 (later.ns - origNow.ns) →
      ∃ ts us, clockConvert (.ok origNow.toTimespec) timeout.toTimespec (.ok targetNow.toTimespec) = .ok ts ∧
        clockConvert (.ok origNow.toTimespec) later.toTimespec (.ok targetNow.toTimespec) = .ok us ∧
        ¬ us.Before ts := by
  refine ⟨⟨?_, ?_⟩, ?_⟩
  · rintro ⟨hist, hconv⟩
    exact ⟨(istimeout_iff now timeout).mp hist,
      fun hrep => (clockConvert_iff origNow targetNow timeout hrep).mp (hconv hrep)⟩
  · rintro ⟨hwrap, hnear⟩
    exact ⟨(istimeout_iff now timeout).mpr hwrap,
      fun hrep => (clockConvert_iff origNow targetNow timeout hrep).mpr (hnear hrep)⟩
  · intro later hle hrep hnear hrep' hnear'
    refine ⟨_, _, (clockConvert_iff origNow targetNow timeout hrep).mpr hnear,
      (clockConvert_iff origNow targetNow later hrep').mpr hnear', ?_⟩
    rw [before_iff later.normal timeout.normal] at hle
    rw [ofNs_before_iff, due, due]
    omega

end Deadline

/-- An instant of so many seconds. -/
def Instant.ofSec (sec : ℕ) (h : sec < 2 ^ 63) : Instant where
  sec := sec
  nsec := 0
  sec_nonneg := by omega
  sec_fits := by
    rw [FitsInt64]
    omega
  nsec_nonneg := le_refl 0
  nsec_lt := nsPerSec_pos

/-- A second after the start, a deadline in 584 years is over, and it is converted to one
before now. -/
theorem not_exact :
    ¬ Exact (.ofSec 1 (by decide)) (.ofSec 1 (by decide)) (.ofSec 1 (by decide)) (.ofSec 18446744074 (by decide)) ∧
      clockConvert (.ok ⟨1, 0⟩) ⟨18446744074, 0⟩ (.ok ⟨1, 0⟩) = .ok ⟨0, 290448384⟩ := by
  constructor
  · rintro ⟨hist, -⟩
    exact absurd hist (by decide)
  · rfl

end AlephZero
