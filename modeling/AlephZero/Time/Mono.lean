import AlephZero.Cmp
import AlephZero.Strconv
import AlephZero.Time.Clock

/-!
# Mono times as text

`a0_time_mono_str` and `a0_time_mono_parse`: the nanoseconds as a number, in a buffer of 20
bytes with a null byte at its end.

## What is proved

* `strToU64_digits` — reading digits gives their value, wrapped around to 64 bits.
* `memcmp_digits` — texts of the same length compare as their values do.
* `monoStr_iff` — a time goes through its text and back, and two times are ordered as their
  texts are, if and only if they are below 10^19 nanoseconds.
-/

namespace AlephZero

/-- The body of the loop of `a0_str_to_u64`; a `char` from 128 on is negative, and no digit. -/
def strToU64Step (out : ℕ) (c : UInt8) : Except Err ℕ :=
  if c < 48 ∨ 57 < c then .error .invalidArg else .ok ((out * 10 + (c.toNat - 48)) % 2 ^ 64)

/-- `a0_str_to_u64` -/
def strToU64 (text : List UInt8) : Except Err ℕ := text.foldlM strToU64Step 0

/-- `a0_time_mono_str`; `none` if a byte in front of the buffer is written. -/
def timeMonoStr (timeMono : Timespec) : Option (List UInt8) :=
  let ns := toUInt64 (timeMono.sec * nsPerSec + timeMono.nsec)
  (u64ToStr ns.toNat 19).map fun r => r.1 ++ [0]

/-- `a0_time_mono_parse` -/
def timeMonoParse (monoStr : List UInt8) : Except Err Timespec := do
  let ns ← strToU64 (monoStr.take 19)
  return ⟨ns / nsPerSec, ns % nsPerSec⟩

/-- A mono time in the documented range. -/
structure MonoTime extends Instant where
  ns_lt : toTimespec.ns < 2 ^ 64

/-! ### Digits -/

/-- The value of digits, the first one the highest. -/
def valueOf (ds : List ℕ) : ℕ := Nat.ofDigits 10 ds.reverse

theorem valueOf_cons (d : ℕ) (ds : List ℕ) : valueOf (d :: ds) = d * 10 ^ ds.length + valueOf ds := by
  rw [valueOf, List.reverse_cons, Nat.ofDigits_append, List.length_reverse, Nat.ofDigits_singleton, valueOf]
  ring

theorem valueOf_lt {ds : List ℕ} (h : ∀ d ∈ ds, d < 10) : valueOf ds < 10 ^ ds.length := by
  rw [valueOf, ← List.length_reverse]
  exact Nat.ofDigits_lt_base_pow_length (by norm_num) fun d hd => h d (List.mem_reverse.mp hd)

theorem digit_toNat {d : ℕ} (h : d < 10) : (digit d).toNat = 48 + d := by
  have hlt : 48 + d < UInt8.size := by
    simp only [UInt8.size]
    omega
  rw [digit, UInt8.toNat_ofNat_of_lt' hlt]

theorem strToU64Step_digit {d : ℕ} (h : d < 10) (out : ℕ) :
    strToU64Step out (digit d) = .ok ((out * 10 + d) % 2 ^ 64) := by
  have hval := digit_toNat h
  have hlo : ¬ digit d < 48 := by
    rw [UInt8.lt_iff_toNat_lt, hval]
    exact not_lt.mpr (Nat.le_add_right 48 d)
  have hhi : ¬ 57 < digit d := by
    rw [UInt8.lt_iff_toNat_lt, hval]
    exact not_lt.mpr (by simp only [UInt8.reduceToNat]; omega)
  rw [strToU64Step, if_neg (not_or.mpr ⟨hlo, hhi⟩), hval, Nat.add_sub_cancel_left]

/-- One digit after the other, from a number that has been read. -/
theorem foldlM_digits {ds : List ℕ} (h : ∀ d ∈ ds, d < 10) (out : ℕ) :
    (ds.map digit).foldlM strToU64Step (out % 2 ^ 64) = .ok ((out * 10 ^ ds.length + valueOf ds) % 2 ^ 64) := by
  induction ds generalizing out with
  | nil => simp [valueOf]; rfl
  | cons d ds ih =>
    have hstep : (out % 2 ^ 64 * 10 + d) % 2 ^ 64 = (out * 10 + d) % 2 ^ 64 := by omega
    rw [List.map_cons, List.foldlM_cons, strToU64Step_digit (h d List.mem_cons_self), hstep]
    calc
      _ = .ok (((out * 10 + d) * 10 ^ ds.length + valueOf ds) % 2 ^ 64) :=
        ih (fun e he => h e (List.mem_cons_of_mem d he)) (out * 10 + d)
      _ = _ := by
        rw [valueOf_cons, List.length_cons]
        ring_nf

/-- **Reading digits** gives their value. -/
theorem strToU64_digits {ds : List ℕ} (h : ∀ d ∈ ds, d < 10) :
    strToU64 (ds.map digit) = .ok (valueOf ds % 2 ^ 64) := by
  simpa [strToU64] using foldlM_digits h 0

/-- **Texts of the same length compare as their values do**: the first digit that differs
counts more than all behind it. -/
theorem memcmp_digits {ds es : List ℕ} (hlen : ds.length = es.length) (hds : ∀ d ∈ ds, d < 10)
    (hes : ∀ e ∈ es, e < 10) : memcmp (ds.map digit) (es.map digit) < 0 ↔ valueOf ds < valueOf es := by
  induction ds generalizing es with
  | nil =>
    cases es with
    | nil => simp [memcmp]
    | cons e es => cases hlen
  | cons d ds ih =>
    cases es with
    | nil => cases hlen
    | cons e es =>
      have hlen' : ds.length = es.length := by simpa using hlen
      have hd : d < 10 := hds d List.mem_cons_self
      have he : e < 10 := hes e List.mem_cons_self
      have hdsv := valueOf_lt fun x hx => hds x (List.mem_cons_of_mem d hx)
      have hesv := valueOf_lt fun x hx => hes x (List.mem_cons_of_mem e hx)
      rw [valueOf_cons, valueOf_cons, List.map_cons, List.map_cons, memcmp, hlen']
      rw [hlen'] at hdsv
      split_ifs with heq
      · have hde : d = e := by
          have h := congrArg UInt8.toNat heq
          rw [digit_toNat hd, digit_toNat he] at h
          omega
        rw [ih hlen' (fun x hx => hds x (List.mem_cons_of_mem d hx)) fun x hx => hes x (List.mem_cons_of_mem e hx), hde]
        exact (Nat.add_lt_add_iff_left ..).symm
      · rw [digit_toNat hd, digit_toNat he]
        generalize 10 ^ es.length = w at *
        rcases Nat.lt_trichotomy d e with hlt | rfl | hgt
        · have : (d + 1) * w ≤ e * w := Nat.mul_le_mul_right w hlt
          constructor
          · intro _
            linarith [Nat.succ_mul d w]
          · intro _
            omega
        · exact absurd rfl heq
        · have : (e + 1) * w ≤ d * w := Nat.mul_le_mul_right w hgt
          constructor
          · intro h
            omega
          · intro h
            linarith [Nat.succ_mul e w]

/-- What is the same behind both does not count. -/
theorem memcmp_append {as bs : List UInt8} (h : as.length = bs.length) (cs : List UInt8) :
    memcmp (as ++ cs) (bs ++ cs) = memcmp as bs := by
  induction as generalizing bs with
  | nil =>
    cases bs with
    | nil =>
      have hself : memcmp cs cs = 0 := (memcmp_eq_zero rfl).mpr rfl
      simpa [memcmp] using hself
    | cons b bs => cases h
  | cons a as ih =>
    cases bs with
    | nil => cases h
    | cons b bs => rw [List.cons_append, List.cons_append, memcmp, memcmp, ih (by simpa using h)]

/-! ### The field -/

/-- The 19 digits of a number. -/
def fieldDigits (val : ℕ) : List ℕ :=
  List.replicate (19 - (Nat.digits 10 val).length) 0 ++ (Nat.digits 10 val).reverse

theorem fieldDigits_lt {val d : ℕ} (h : d ∈ fieldDigits val) : d < 10 := by
  rcases List.mem_append.mp h with h | h
  · rw [List.eq_of_mem_replicate h]
    exact Nat.succ_pos 9
  · exact Nat.digits_lt_base (by norm_num) (List.mem_reverse.mp h)

/-- The padding does not count. -/
theorem valueOf_fieldDigits (val : ℕ) : valueOf (fieldDigits val) = val := by
  rw [valueOf, fieldDigits, List.reverse_append, List.reverse_reverse, List.reverse_replicate,
    Nat.ofDigits_append_replicate_zero, Nat.ofDigits_digits]

theorem length_fieldDigits {val : ℕ} (h : val < 10 ^ 19) : (fieldDigits val).length = 19 := by
  have hlen : (Nat.digits 10 val).length ≤ 19 := (Nat.digits_length_le_iff (by norm_num) val).mpr h
  rw [fieldDigits, List.length_append, List.length_replicate, List.length_reverse]
  omega

/-- The buffer of `a0_u64_to_str` with 19 bytes. -/
theorem u64ToStr_eq {val : ℕ} (h : val < 10 ^ 19) :
    (u64ToStr val 19).map Prod.fst = some ((fieldDigits val).map digit) := by
  have hlen : (Nat.digits 10 val).length ≤ 19 := (Nat.digits_length_le_iff (by norm_num) val).mpr h
  have hdigits := u64Digits_eq val []
  rw [List.append_nil] at hdigits
  rw [u64ToStr, hdigits]
  simp only [List.length_map, List.length_reverse]
  rw [if_neg (not_lt.mpr hlen), fieldDigits, List.map_append, List.map_replicate]
  rfl

/-- A number of 20 digits does not fit. -/
theorem u64ToStr_eq_none {val : ℕ} (h : 10 ^ 19 ≤ val) : u64ToStr val 19 = none := by
  have hlen : ¬ (Nat.digits 10 val).length ≤ 19 := fun hle =>
    not_lt.mpr h ((Nat.digits_length_le_iff (by norm_num) val).mp hle)
  have hdigits := u64Digits_eq val []
  rw [List.append_nil] at hdigits
  rw [u64ToStr, hdigits]
  simp only [List.length_map, List.length_reverse]
  rw [if_pos (not_le.mp hlen)]

/-! ### Mono times -/

namespace MonoTime

variable (t u : MonoTime)

/-- The nanoseconds do not wrap around. -/
theorem toUInt64_ns : (toUInt64 (t.sec * nsPerSec + t.nsec)).toNat = t.ns.toNat := by
  have hnonneg := (Timespec.ns_bounds t.toInstant).1
  have hlt := t.ns_lt
  rw [toUInt64, ← Timespec.ns, Int.emod_eq_of_lt hnonneg hlt]

theorem str_eq (h : t.ns < 10 ^ 19) :
    timeMonoStr t.toTimespec = some ((fieldDigits t.ns.toNat).map digit ++ [0]) := by
  have hfield := u64ToStr_eq (show t.ns.toNat < 10 ^ 19 by omega)
  obtain ⟨r, hr, hfst⟩ := Option.map_eq_some_iff.mp hfield
  rw [timeMonoStr, toUInt64_ns, hr, Option.map_some, hfst]

theorem str_eq_none (h : 10 ^ 19 ≤ t.ns) : timeMonoStr t.toTimespec = none := by
  rw [timeMonoStr, toUInt64_ns, u64ToStr_eq_none (by omega), Option.map_none]

/-- The time is read off the field. -/
theorem parse_eq (h : t.ns < 10 ^ 19) :
    timeMonoParse ((fieldDigits t.ns.toNat).map digit ++ [0]) = .ok t.toTimespec := by
  have hnonneg := (Timespec.ns_bounds t.toInstant).1
  have hlt := t.ns_lt
  have htake : ((fieldDigits t.ns.toNat).map digit ++ [0]).take 19 = (fieldDigits t.ns.toNat).map digit := by
    apply List.take_left'
    rw [List.length_map]
    exact length_fieldDigits (by omega)
  have hmod : t.ns.toNat % 2 ^ 64 = t.ns.toNat := Nat.mod_eq_of_lt (by omega)
  have hread : strToU64 ((fieldDigits t.ns.toNat).map digit) = .ok t.ns.toNat := by
    rw [strToU64_digits fun d hd => fieldDigits_lt hd, valueOf_fieldDigits, hmod]
  rw [timeMonoParse, htake, hread]
  calc
    _ = Except.ok (Timespec.ofNs (t.ns.toNat : ℤ)) := rfl
    _ = _ := by rw [Int.toNat_of_nonneg hnonneg, Timespec.ofNs_ns t.normal]

/-- What is asked of the texts of two times: they fill their buffers and no byte else, they
are read back, and they are ordered as the times are. -/
def Faithful : Prop :=
  ∃ str str', timeMonoStr t.toTimespec = some str ∧ timeMonoStr u.toTimespec = some str' ∧
    str.length = 20 ∧ str'.length = 20 ∧
    timeMonoParse str = .ok t.toTimespec ∧ timeMonoParse str' = .ok u.toTimespec ∧
    (memcmp str str' < 0 ↔ t.Before u.toTimespec)

end MonoTime

open MonoTime

/-- **Mono times go through their texts** if and only if they are below 10^19 nanoseconds. -/
theorem monoStr_iff (t u : MonoTime) : Faithful t u ↔ t.ns < 10 ^ 19 ∧ u.ns < 10 ^ 19 := by
  constructor
  · rintro ⟨str, str', hstr, hstr', -⟩
    constructor
    · apply not_le.mp
      intro h
      rw [str_eq_none t h] at hstr
      cases hstr
    · apply not_le.mp
      intro h
      rw [str_eq_none u h] at hstr'
      cases hstr'
  · rintro ⟨ht, hu⟩
    have hlen := length_fieldDigits (show t.ns.toNat < 10 ^ 19 by omega)
    have hlen' := length_fieldDigits (show u.ns.toNat < 10 ^ 19 by omega)
    refine ⟨_, _, str_eq t ht, str_eq u hu, ?_, ?_, parse_eq t ht, parse_eq u hu, ?_⟩
    · rw [List.length_append, List.length_map, hlen, List.length_singleton]
    · rw [List.length_append, List.length_map, hlen', List.length_singleton]
    · have hnonneg := (Timespec.ns_bounds t.toInstant).1
      rw [memcmp_append (by rw [List.length_map, List.length_map, hlen, hlen']),
        memcmp_digits (hlen.trans hlen'.symm) (fun d hd => fieldDigits_lt hd) fun d hd => fieldDigits_lt hd,
        valueOf_fieldDigits, valueOf_fieldDigits, Timespec.before_iff t.normal u.normal]
      omega

/-- The time of 10^19 nanoseconds. -/
def MonoTime.twentyDigits : MonoTime where
  sec := 10000000000
  nsec := 0
  sec_nonneg := by decide
  sec_fits := by decide
  nsec_nonneg := by decide
  nsec_lt := nsPerSec_pos
  ns_lt := by decide

/-- Its 20 digits begin in front of the buffer. -/
theorem not_faithful : ¬ Faithful .twentyDigits .twentyDigits ∧ timeMonoStr ⟨10000000000, 0⟩ = none := by
  have hnone := str_eq_none .twentyDigits (by decide)
  constructor
  · rintro ⟨str, str', hstr, -⟩
    rw [hnone] at hstr
    cases hstr
  · exact hnone

end AlephZero
