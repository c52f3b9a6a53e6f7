import AlephZero.Time.Mono

/-!
# Numbers as text

`a0_u64_to_str` and `a0_str_to_u64`, in buffers of any width.

## What is proved

* `tableDigits_eq` — the pairs of digits that the loop copies from its table are those of the number.
* `strToU64_eq_error` — reading fails exactly where there is a byte that is no digit.
* **`u64ToStr_roundTrip`** — a buffer that is wide enough is filled with zeros and the decimal form, and the
  number is read back from all of it, or from where it starts.
* `strToU32_eq` — `a0_str_to_u32` reads the same number, and keeps 32 bits of it.
* `strToU64_eq_ok`, `strToU32_eq_ok` — a text of a fixed width that is read is that of its number.
-/

namespace AlephZero

/-- `DECIMAL_DIGITS` -/
def decimalDigits : List UInt8 := [
  "00010203040506070809",
  "10111213141516171819",
  "20212223242526272829",
  "30313233343536373839",
  "40414243444546474849",
  "50515253545556575859",
  "60616263646566676869",
  "70717273747576777879",
  "80818283848586878889",
  "90919293949596979899"].flatMap fun row => (CString.ofString row).bytes

/-- The loop of `a0_u64_to_str`, with the pairs that it copies from the table. -/
def tableDigits (val : ℕ) (text : List UInt8) : List UInt8 :=
  if 10 ≤ val then tableDigits (val / 100) ((decimalDigits.drop (2 * (val % 100))).take 2 ++ text)
  else if val = 0 then text
  else digit val :: text

theorem decimalDigits_eq :
    decimalDigits = (List.range 100).flatMap fun k => [digit (k / 10), digit (k % 10)] := by
  decide +kernel

theorem decimalDigits_pair {k : ℕ} (h : k < 100) :
    (decimalDigits.drop (2 * k)).take 2 = [digit (k / 10), digit (k % 10)] := by
  rw [decimalDigits_eq, Nat.mul_comm 2 k, pair_of_flatMap (fun _ => rfl) h]

/-- The table holds the two digits of every number below 100. -/
theorem tableDigits_eq (val : ℕ) (text : List UInt8) : tableDigits val text = u64Digits val text := by
  induction val using Nat.strong_induction_on generalizing text with
  | _ val ih =>
    rw [tableDigits, u64Digits]
    split_ifs with hten
    · have hmod : val % 100 % 10 = val % 10 := Nat.mod_mod_of_dvd val (by norm_num)
      rw [decimalDigits_pair (Nat.mod_lt _ (by norm_num)), ih _ (by omega), hmod]
      rfl
    · rfl
    · rfl

/-! ### Reading -/

/-- A byte that is no digit. -/
def NoDigit (c : UInt8) : Prop := c < 48 ∨ 57 < c

theorem foldlM_eq_error (text : List UInt8) (out : ℕ) :
    text.foldlM strToU64Step out = .error .invalidArg ↔ ∃ c ∈ text, NoDigit c := by
  induction text generalizing out with
  | nil => simp [pure, Except.pure]
  | cons c text ih =>
    rw [List.foldlM_cons, strToU64Step]
    split_ifs with hc
    · exact iff_of_true rfl ⟨c, List.mem_cons_self, hc⟩
    · calc
        _ ↔ ∃ c ∈ text, NoDigit c := ih _
        _ ↔ _ := by
          rw [List.exists_mem_cons_iff]
          exact (or_iff_right hc).symm

/-- **Reading fails** exactly where there is a byte that is no digit. -/
theorem strToU64_eq_error (text : List UInt8) : strToU64 text = .error .invalidArg ↔ ∃ c ∈ text, NoDigit c :=
  foldlM_eq_error text 0

/-! ### Writing -/

/-- The digits of a number, the first one the highest. -/
def decimalValues (val : ℕ) : List ℕ := if val = 0 then [0] else (Nat.digits 10 val).reverse

theorem decimal_eq (val : ℕ) : decimal val = (decimalValues val).map digit := by
  rw [decimal, decimalValues]
  split_ifs <;> rfl

theorem decimalValues_lt {val d : ℕ} (hd : d ∈ decimalValues val) : d < 10 := by
  rw [decimalValues] at hd
  split_ifs at hd
  · rw [List.mem_singleton.mp hd]
    norm_num
  · exact Nat.digits_lt_base (by norm_num) (List.mem_reverse.mp hd)

theorem valueOf_decimalValues (val : ℕ) : valueOf (decimalValues val) = val := by
  rw [decimalValues]
  split_ifs with hzero
  · rw [hzero]
    rfl
  · rw [valueOf, List.reverse_reverse, Nat.ofDigits_digits]

/-- Zeros in front do not change the value. -/
theorem valueOf_replicate_append (n : ℕ) (ds : List ℕ) : valueOf (List.replicate n 0 ++ ds) = valueOf ds := by
  induction n with
  | zero => rfl
  | succ n ih => rw [List.replicate_succ, List.cons_append, valueOf_cons, ih, Nat.zero_mul, Nat.zero_add]

/-- The decimal form with zeros in front, digit by digit. -/
theorem replicate_decimal_eq (n val : ℕ) :
    List.replicate n 48 ++ decimal val = (List.replicate n 0 ++ decimalValues val).map digit := by
  rw [List.map_append, List.map_replicate, decimal_eq]
  rfl

theorem replicate_decimalValues_lt {n val d : ℕ} (hd : d ∈ List.replicate n 0 ++ decimalValues val) : d < 10 := by
  rcases List.mem_append.mp hd with hzero | hd
  · rw [List.eq_of_mem_replicate hzero]
    norm_num
  · exact decimalValues_lt hd

/-- A number is read off its decimal form, with zeros in front. -/
theorem strToU64_padded {val : ℕ} (hval : val < 2 ^ 64) (n : ℕ) :
    strToU64 (List.replicate n 48 ++ decimal val) = .ok val := by
  rw [replicate_decimal_eq, strToU64_digits fun d hd => replicate_decimalValues_lt hd, valueOf_replicate_append,
    valueOf_decimalValues, Nat.mod_eq_of_lt hval]

/-- Zero leaves no digits, and the last of the zeros before them is its own. -/
theorem u64ToStr_eq_some {val width : ℕ} (hwidth : (decimal val).length ≤ width) :
    u64ToStr val width = some (List.replicate (width - (decimal val).length) 48 ++ decimal val,
      width - (decimal val).length) := by
  have hdigits := u64Digits_eq val []
  rw [List.append_nil] at hdigits
  rw [u64ToStr, hdigits]
  by_cases hzero : val = 0
  · subst hzero
    have hone : 1 ≤ width := hwidth
    obtain ⟨n, rfl⟩ := Nat.exists_eq_add_of_le' hone
    simp only [decimal, if_true, Nat.digits_zero, List.reverse_nil, List.map_nil, List.length_nil,
      List.length_singleton, Nat.not_lt_zero, if_false, List.append_nil, Nat.sub_zero, Nat.add_sub_cancel,
      List.replicate_succ']
    rfl
  · have hdecimal : decimal val = (Nat.digits 10 val).reverse.map digit := if_neg hzero
    rw [← hdecimal, if_neg (not_lt.mpr hwidth), if_neg hzero, Nat.sub_zero]

/-- **Numbers go through their text and back**, in any buffer that is wide enough. -/
theorem u64ToStr_roundTrip (val width : ℕ) (hval : val < 2 ^ 64) (hwidth : (decimal val).length ≤ width)
    (text : List UInt8) :
    (∃ buf start, u64ToStr val width = some (buf, start) ∧ buf.length = width ∧
        buf = List.replicate start 48 ++ decimal val ∧ start = width - (decimal val).length ∧
        strToU64 buf = .ok val ∧ strToU64 (buf.drop start) = .ok val) ∧
      (strToU64 text = .error .invalidArg ↔ ∃ c ∈ text, NoDigit c) := by
  refine ⟨⟨_, _, u64ToStr_eq_some hwidth, ?_, rfl, rfl, strToU64_padded hval _, ?_⟩, strToU64_eq_error text⟩
  · rw [List.length_append, List.length_replicate, Nat.sub_add_cancel hwidth]
  · rw [List.drop_left' (List.length_replicate ..)]
    exact strToU64_padded hval 0

theorem u64ToStr_roundTrip_max :
    (decimal 18446744073709551615).length ≤ 24 ∧
      ∃ buf start, u64ToStr 18446744073709551615 24 = some (buf, start) ∧ strToU64 buf = .ok 18446744073709551615 := by
  have hwidth : (decimal 18446744073709551615).length ≤ 24 := by decide +kernel
  obtain ⟨⟨buf, start, hstr, -, -, -, hread, -⟩, -⟩ := u64ToStr_roundTrip _ 24 (by norm_num) hwidth []
  exact ⟨hwidth, buf, start, hstr, hread⟩

/-! ### Texts of a fixed width -/

/-- The body of the loop of `a0_str_to_u32`. -/
def strToU32Step (out : ℕ) (c : UInt8) : Except Err ℕ :=
  if c < 48 ∨ 57 < c then .error .invalidArg else .ok ((out * 10 + (c.toNat - 48)) % 2 ^ 32)

/-- `a0_str_to_u32` -/
def strToU32 (text : List UInt8) : Except Err ℕ := text.foldlM strToU32Step 0

/-- Both loops do the same, up to the bits that are kept. -/
theorem strToU32_eq (text : List UInt8) : strToU32 text = (strToU64 text).map (· % 2 ^ 32) := by
  have hloop : ∀ out, text.foldlM strToU32Step (out % 2 ^ 32) = (text.foldlM strToU64Step out).map (· % 2 ^ 32) := by
    induction text with
    | nil => exact fun _ => rfl
    | cons c text ih =>
      intro out
      rw [List.foldlM_cons, List.foldlM_cons, strToU32Step, strToU64Step]
      split_ifs with hc
      · rfl
      · have hkeep : (out % 2 ^ 32 * 10 + (c.toNat - 48)) % 2 ^ 32 =
            (out * 10 + (c.toNat - 48)) % 2 ^ 64 % 2 ^ 32 := by omega
        rw [hkeep]
        exact ih _
  exact hloop 0

/-- The decimal form of a number, with zeros in front of it. -/
def padded (width val : ℕ) : List UInt8 := List.replicate (width - (decimal val).length) 48 ++ decimal val

/-- Its digits. -/
def paddedValues (width val : ℕ) : List ℕ :=
  List.replicate (width - (decimal val).length) 0 ++ decimalValues val

theorem padded_eq (width val : ℕ) : padded width val = (paddedValues width val).map digit :=
  replicate_decimal_eq ..

theorem paddedValues_lt {width val d : ℕ} (hd : d ∈ paddedValues width val) : d < 10 :=
  replicate_decimalValues_lt hd

theorem valueOf_paddedValues (width val : ℕ) : valueOf (paddedValues width val) = val := by
  rw [paddedValues, valueOf_replicate_append, valueOf_decimalValues]

theorem zero_notMem_padded (width val : ℕ) : 0 ∉ padded width val := by
  rw [padded_eq]
  intro h
  obtain ⟨d, hd, hzero⟩ := List.mem_map.mp h
  exact digit_ne_zero (paddedValues_lt hd) hzero

variable {width val : ℕ} {text : List UInt8}

theorem length_decimal_le (hwidth : 0 < width) (hval : val < 10 ^ width) : (decimal val).length ≤ width := by
  rw [decimal]
  split_ifs
  · exact hwidth
  · rw [List.length_map, List.length_reverse]
    exact (Nat.digits_length_le_iff (by norm_num) val).mpr hval

theorem length_padded (hwidth : 0 < width) (hval : val < 10 ^ width) : (padded width val).length = width := by
  rw [padded, List.length_append, List.length_replicate, Nat.sub_add_cancel (length_decimal_le hwidth hval)]

/-- The number of a text of digits. -/
def numberOf (text : List UInt8) : ℕ := valueOf (text.map fun c => c.toNat - 48)

theorem numberOf_padded (width val : ℕ) : numberOf (padded width val) = val := by
  have hdigits : (padded width val).map (fun c => c.toNat - 48) = paddedValues width val := by
    rw [padded_eq, List.map_map]
    exact (List.map_congr_left fun d hd => toNat_digit (paddedValues_lt hd)).trans (List.map_id _)
  rw [numberOf, hdigits, valueOf_paddedValues]

/-- Digits are those of their number, in their own width. -/
theorem padded_valueOf {ds : List ℕ} (h : ∀ d ∈ ds, d < 10) (hpos : 0 < ds.length) :
    padded ds.length (valueOf ds) = ds.map digit := by
  have hlen := length_padded hpos (valueOf_lt h)
  rw [padded_eq, List.length_map] at hlen
  have hvalues : paddedValues ds.length (valueOf ds) = ds := by
    rw [← List.reverse_inj]
    apply Nat.ofDigits_inj_of_len_eq (b := 10) (by norm_num)
    · rw [List.length_reverse, List.length_reverse, hlen]
    · exact fun d hd => paddedValues_lt (List.mem_reverse.mp hd)
    · exact fun d hd => h d (List.mem_reverse.mp hd)
    · exact valueOf_paddedValues ..
  rw [padded_eq, hvalues]

/-- A text without other bytes is one of digits. -/
theorem exists_digits (h : ∀ c ∈ text, ¬ NoDigit c) : ∃ ds : List ℕ, (∀ d ∈ ds, d < 10) ∧ text = ds.map digit := by
  induction text with
  | nil => exact ⟨[], List.forall_mem_nil _, rfl⟩
  | cons c text ih =>
    obtain ⟨ds, hds, rfl⟩ := ih fun c hc => h c (List.mem_cons_of_mem _ hc)
    have hc := h c List.mem_cons_self
    rw [NoDigit, not_or, UInt8.not_lt, UInt8.not_lt, UInt8.le_iff_toNat_le, UInt8.le_iff_toNat_le] at hc
    simp only [UInt8.reduceToNat] at hc
    have hdigit : digit (c.toNat - 48) = c := by
      rw [digit, Nat.add_sub_cancel' hc.1, UInt8.ofNat_toNat]
    refine ⟨(c.toNat - 48) :: ds, List.forall_mem_cons.mpr ⟨by omega, hds⟩, ?_⟩
    rw [List.map_cons, hdigit]

/-- **A text of a fixed width** that is read is that of its number. -/
theorem strToU64_eq_ok (hlen : text.length = width) (hpos : 0 < width) (hwidth : width ≤ 19) :
    strToU64 text = .ok val ↔ val < 10 ^ width ∧ text = padded width val := by
  have hfits : 10 ^ width ≤ 2 ^ 64 := (Nat.pow_le_pow_right (by norm_num) hwidth).trans (by norm_num)
  constructor
  · intro hread
    have hdigit : ∀ c ∈ text, ¬ NoDigit c := by
      intro c hc hno
      rw [(strToU64_eq_error text).mpr ⟨c, hc, hno⟩] at hread
      cases hread
    obtain ⟨ds, hds, rfl⟩ := exists_digits hdigit
    rw [List.length_map] at hlen
    subst hlen
    have hlt := valueOf_lt hds
    rw [strToU64_digits hds, Nat.mod_eq_of_lt (hlt.trans_le hfits), Except.ok.injEq] at hread
    subst hread
    exact ⟨hlt, (padded_valueOf hds hpos).symm⟩
  · rintro ⟨hval, rfl⟩
    exact strToU64_padded (hval.trans_le hfits) _

theorem strToU32_eq_ok (hlen : text.length = width) (hpos : 0 < width) (hwidth : width ≤ 9) :
    strToU32 text = .ok val ↔ val < 10 ^ width ∧ text = padded width val := by
  have hfits : 10 ^ width ≤ 2 ^ 32 := (Nat.pow_le_pow_right (by norm_num) hwidth).trans (by norm_num)
  have hread (val : ℕ) : strToU64 text = .ok val ↔ val < 10 ^ width ∧ text = padded width val :=
    strToU64_eq_ok hlen hpos (hwidth.trans (by norm_num))
  rw [strToU32_eq]
  constructor
  · intro h
    cases hwide : strToU64 text with
    | error e =>
      rw [hwide] at h
      cases h
    | ok wide =>
      obtain ⟨hlt, htext⟩ := (hread wide).mp hwide
      rw [hwide, Except.map, Except.ok.injEq, Nat.mod_eq_of_lt (hlt.trans_le hfits)] at h
      subst h
      exact ⟨hlt, htext⟩
  · intro h
    rw [(hread val).mpr h, Except.map, Nat.mod_eq_of_lt (h.1.trans_le hfits)]

end AlephZero
