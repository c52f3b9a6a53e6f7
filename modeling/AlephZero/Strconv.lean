import AlephZero.Packet.Basic
import Mathlib.Data.List.TakeWhile
import Mathlib.Data.Nat.Digits.Lemmas

/-!
# Text

String literals, and `strconv.c` as far as headers need it.

## What is proved

* `u64Digits_eq` — the loop writes the decimal digits.
* `seqText_eq_some`, `exists_seqText` — the text of a sequence number is its decimal form,
  and there is one below 10^19.
* `decimal_injective` — different numbers have different decimal forms.
-/

namespace AlephZero

/-- The string that begins with these bytes. -/
def CString.ofBytes (bytes : List UInt8) : CString where
  bytes := bytes.takeWhile (· ≠ 0)
  nonNull h := by simpa using List.mem_takeWhile_imp h

/-- A string literal. -/
def CString.ofString (text : String) : CString := .ofBytes (text.toList.map fun c => UInt8.ofNat c.toNat)

/-- The byte of a decimal digit. -/
def digit (d : ℕ) : UInt8 := UInt8.ofNat (48 + d)

/-- The digits that the loop of `a0_u64_to_str` writes, from the back, in front of `text`. -/
def u64Digits (val : ℕ) (text : List UInt8) : List UInt8 :=
  if 10 ≤ val then u64Digits (val / 100) (digit (val % 100 / 10) :: digit (val % 10) :: text)
  else if val = 0 then text
  else digit val :: text

/-- `a0_u64_to_str`, into a buffer of `width` bytes: the buffer, and where the number
starts. It is `none` if a byte in front of the buffer is written. -/
def u64ToStr (val width : ℕ) : Option (List UInt8 × ℕ) :=
  let text := u64Digits val []
  if width < text.length then none
  else some (List.replicate (width - text.length) 48 ++ text,
    width - text.length - if val = 0 then 1 else 0)

/-- The text of a sequence number in a header, in a buffer of 20 bytes with a null byte at
its end. -/
def seqText (seq : ℕ) : Option CString := (u64ToStr seq 19).map fun r => .ofBytes (r.1.drop r.2)

/-- What a table of pairs holds. -/
theorem pair_of_flatMap {α : Type} {f : ℕ → List α} (hf : ∀ n, (f n).length = 2) {n m : ℕ} (h : n < m) :
    (((List.range m).flatMap f).drop (n * 2)).take 2 = f n := by
  obtain ⟨k, rfl⟩ := Nat.exists_eq_add_of_lt h
  have hlen : ((List.range n).flatMap f).length = n * 2 := by
    rw [List.length_flatMap, List.map_congr_left fun i _ => hf i, List.map_const', List.sum_replicate_nat,
      List.length_range]
  rw [add_assoc, List.range_add, List.flatMap_append, List.drop_left' hlen, List.range_succ_eq_map, List.map_cons,
    List.flatMap_cons, add_zero, List.take_left' (hf n)]

/-! ### The decimal form -/

/-- The decimal form of a number. -/
def decimal (val : ℕ) : List UInt8 :=
  if val = 0 then [digit 0] else (Nat.digits 10 val).reverse.map digit

/-- The loop writes two digits at a time. -/
theorem u64Digits_eq (val : ℕ) (text : List UInt8) :
    u64Digits val text = (Nat.digits 10 val).reverse.map digit ++ text := by
  induction val using Nat.strong_induction_on generalizing text with
  | _ val ih =>
    rw [u64Digits]
    split_ifs with hten hzero
    · have hfirst : Nat.digits 10 val = val % 10 :: Nat.digits 10 (val / 10) :=
        Nat.digits_def' (by norm_num) (by omega)
      have hsecond : Nat.digits 10 (val / 10) = val / 10 % 10 :: Nat.digits 10 (val / 100) := by
        rw [Nat.digits_def' (by norm_num) (by omega), Nat.div_div_eq_div_mul]
      have hmod : val % 100 / 10 = val / 10 % 10 := by omega
      rw [ih (val / 100) (by omega), hfirst, hsecond, hmod]
      simp
    · rw [hzero]
      simp
    · rw [Nat.digits_of_lt 10 val hzero (by omega)]
      simp

theorem digit_ne_zero {d : ℕ} (hd : d < 10) : digit d ≠ 0 := by
  have hlt : 48 + d < UInt8.size := by
    simp only [UInt8.size]
    omega
  intro h
  have hnat := congrArg UInt8.toNat h
  rw [digit, UInt8.toNat_ofNat_of_lt' hlt] at hnat
  simp at hnat

theorem ofBytes_bytes {bytes : List UInt8} (h : 0 ∉ bytes) : (CString.ofBytes bytes).bytes = bytes := by
  rw [CString.ofBytes, List.takeWhile_eq_self_iff]
  intro b hb
  rw [decide_eq_true_iff]
  rintro rfl
  exact h hb

theorem zero_notMem_digits (val : ℕ) : 0 ∉ (Nat.digits 10 val).reverse.map digit := by
  intro h
  obtain ⟨d, hd, hzero⟩ := List.mem_map.mp h
  exact digit_ne_zero (Nat.digits_lt_base (by norm_num) (List.mem_reverse.mp hd)) hzero

/-- **The text of a sequence number** is its decimal form, and there is one below 10^19. -/
theorem seqText_eq_some {seq : ℕ} {text : CString} (h : seqText seq = some text) :
    seq < 10 ^ 19 ∧ text.bytes = decimal seq := by
  have hdigits := u64Digits_eq seq []
  rw [List.append_nil] at hdigits
  simp only [seqText, u64ToStr, hdigits, List.length_map, List.length_reverse] at h
  split_ifs at h with hlong hzero
  · cases h
  · cases h
    rw [hzero]
    exact ⟨by norm_num, rfl⟩
  · rw [Option.map_some, Option.some.injEq] at h
    subst h
    constructor
    · have hlt : seq < 10 ^ (Nat.digits 10 seq).length := Nat.lt_base_pow_length_digits (by norm_num)
      exact hlt.trans_le (Nat.pow_le_pow_right (by norm_num) (not_lt.mp hlong))
    · have hdrop : (List.replicate (19 - (Nat.digits 10 seq).length) (48 : UInt8)).drop
          (19 - (Nat.digits 10 seq).length - 0) = [] := List.drop_eq_nil_of_le (by simp)
      rw [decimal, if_neg hzero, List.drop_append_of_le_length (by simp), hdrop, List.nil_append,
        ofBytes_bytes (zero_notMem_digits seq)]

/-- There is one below 10^19. -/
theorem exists_seqText {seq : ℕ} (h : seq < 10 ^ 19) : ∃ text, seqText seq = some text := by
  have hdigits := u64Digits_eq seq []
  have hlen : (Nat.digits 10 seq).length ≤ 19 := (Nat.digits_length_le_iff (by norm_num) seq).mpr h
  rw [List.append_nil] at hdigits
  rw [seqText, u64ToStr, hdigits]
  simp only [List.length_map, List.length_reverse]
  rw [if_neg (by omega)]
  exact ⟨_, rfl⟩

/-- The value of a digit. -/
theorem toNat_digit {d : ℕ} (hd : d < 10) : (digit d).toNat - 48 = d := by
  have hlt : 48 + d < UInt8.size := by
    simp only [UInt8.size]
    omega
  rw [digit, UInt8.toNat_ofNat_of_lt' hlt]
  omega

/-- The number can be read off its decimal form. -/
theorem decimal_injective : Function.Injective decimal := by
  apply Function.LeftInverse.injective (g := fun bytes => Nat.ofDigits 10 (bytes.reverse.map fun b => b.toNat - 48))
  intro val
  by_cases hzero : val = 0
  · rw [decimal, if_pos hzero, hzero]
    decide
  · have hmap : (Nat.digits 10 val).map (fun d => (digit d).toNat - 48) = Nat.digits 10 val := by
      rw [List.map_congr_left fun d hd => toNat_digit (Nat.digits_lt_base (by norm_num) hd), List.map_id']
    simp only [decimal, if_neg hzero, ← List.map_reverse, List.reverse_reverse, List.map_map]
    exact (congrArg (Nat.ofDigits 10) hmap).trans (Nat.ofDigits_digits 10 val)

example : seqText 0 = some (.ofString "0") := by decide +kernel
example : seqText 1207 = some (.ofString "1207") := by decide +kernel

end AlephZero
