import AlephZero.Packet.Basic

/-!
# Comparison

`cmp.c`. What a load behind the end of the table of hex digits gives is a parameter.
-/

namespace AlephZero

/-- `memcmp`, on as many bytes as both have. -/
def memcmp : List UInt8 → List UInt8 → ℤ
  | a :: as, b :: bs => if a = b then memcmp as bs else (a.toNat : ℤ) - b.toNat
  | _, _ => 0

theorem memcmp_eq_zero {as bs : List UInt8} (h : as.length = bs.length) : memcmp as bs = 0 ↔ as = bs := by
  induction as generalizing bs with
  | nil =>
    cases bs with
    | nil => simp [memcmp]
    | cons b bs => cases h
  | cons a as ih =>
    cases bs with
    | nil => cases h
    | cons b bs =>
      rw [memcmp]
      split_ifs with hab
      · rw [ih (by simpa using h), hab, List.cons.injEq, and_iff_right rfl]
      · have hne : a.toNat ≠ b.toNat := fun he => hab (UInt8.toNat.inj he)
        simp only [List.cons.injEq, hab, false_and, iff_false]
        omega

/-! ### Numbers -/

/-- `GOLDEN_RATIO_U32`. -/
def goldenRatioU32 : UInt32 := 0x9E3779B9

/-- `a0_hash_u32_fn`. -/
def hashU32 (data : UInt32) : Except Err ℕ := .ok (data * goldenRatioU32).toNat

/-- `a0_cmp_u32_fn`. -/
def cmpU32 (lhs rhs : UInt32) : Except Err ℤ :=
  let diff : ℤ := rhs.toNat - lhs.toNat
  .ok ((if diff < 0 then 1 else 0) - (if diff > 0 then 1 else 0))

theorem cmpU32_eq_zero (lhs rhs : UInt32) : cmpU32 lhs rhs = .ok 0 ↔ lhs = rhs := by
  rw [cmpU32, Except.ok.injEq, ← UInt32.toNat_inj]
  split_ifs <;> omega

/-! ### Pointers -/

/-- The conversion to `int`. -/
def toInt32 (x : ℕ) : ℤ := (x : ℤ).bmod (2 ^ 32)

/-- `a0_hash_ptr_fn`; the logarithm of 9 is between 3 and 4. -/
def hashPtr (data : UInt64) : Except Err ℕ := .ok (data >>> 3).toNat

/-- `a0_cmp_ptr_fn`. -/
def cmpPtr (lhs rhs : UInt64) : Except Err ℤ := .ok (toInt32 (lhs - rhs).toNat)

/-! ### Buffers -/

/-- What a key of type `a0_buf_t` points to. -/
structure BufKey where
  data : List UInt8
  size_lt : data.length < 2 ^ 64

/-- `a0_hash_buf_fn`. -/
def hashBuf (data : BufKey) : Except Err ℕ :=
  let step (out : UInt64) (b : UInt8) : UInt64 :=
    out ^^^ ((b.toUInt32 + goldenRatioU32).toUInt64 + out <<< (6 : UInt64) + out >>> (2 : UInt64))
  .ok (data.data.foldl step 0).toNat

/-- `a0_cmp_buf_fn`; `none` if the difference of the sizes overflows an `int`, which is
undefined. -/
def cmpBuf (lhs rhs : BufKey) : Option (Except Err ℤ) :=
  if lhs.data.length ≠ rhs.data.length then
    let diff := toInt32 lhs.data.length - toInt32 rhs.data.length
    if -2 ^ 31 ≤ diff ∧ diff < 2 ^ 31 then some (.ok diff) else none
  else some (.ok (memcmp lhs.data rhs.data))

/-! ### Strings -/

/-- `a0_hash_str_fn`; a `char` has a sign. -/
def hashStr (data : CString) : Except Err ℕ :=
  let step (out : UInt64) (c : UInt8) : UInt64 :=
    out ^^^ ((c.toInt8.toInt32.toUInt32 + goldenRatioU32).toUInt64 + out <<< (6 : UInt64) + out >>> (2 : UInt64))
  .ok (data.bytes.foldl step 0).toNat

/-- `strcmp`. -/
def strcmp (lhs rhs : CString) : ℤ := memcmp lhs.terminated rhs.terminated

/-- `a0_cmp_str_fn`. -/
def cmpStr (lhs rhs : CString) : Except Err ℤ := .ok (strcmp lhs rhs)

/-- The null byte comes first in no string. -/
theorem memcmp_terminated {as bs : List UInt8} (ha : 0 ∉ as) (hb : 0 ∉ bs) :
    memcmp (as ++ [0]) (bs ++ [0]) = 0 ↔ as = bs := by
  induction as generalizing bs with
  | nil =>
    cases bs with
    | nil => simp [memcmp]
    | cons b bs =>
      have hb₀ : (0 : UInt8) ≠ b := fun h => hb (h ▸ List.mem_cons_self)
      have hne : b.toNat ≠ 0 := fun h => hb₀ (UInt8.toNat.inj h.symm)
      simp [memcmp, hb₀, hne]
  | cons a as ih =>
    cases bs with
    | nil =>
      have ha₀ : a ≠ 0 := fun h => ha (h ▸ List.mem_cons_self)
      have hne : a.toNat ≠ 0 := fun h => ha₀ (UInt8.toNat.inj h)
      simp [memcmp, ha₀, hne]
    | cons b bs =>
      rw [List.cons_append, List.cons_append, memcmp]
      split_ifs with hab
      · rw [ih (fun h => ha (List.mem_cons_of_mem _ h)) (fun h => hb (List.mem_cons_of_mem _ h)), hab, List.cons.injEq,
          and_iff_right rfl]
      · have hne : a.toNat ≠ b.toNat := fun he => hab (UInt8.toNat.inj he)
        simp only [List.cons.injEq, hab, false_and, iff_false]
        omega

theorem cmpStr_eq_zero (lhs rhs : CString) : cmpStr lhs rhs = .ok 0 ↔ lhs = rhs := by
  obtain ⟨as, ha⟩ := lhs
  obtain ⟨bs, hb⟩ := rhs
  rw [cmpStr, Except.ok.injEq, strcmp, CString.terminated, CString.terminated, memcmp_terminated ha hb,
    CString.mk.injEq]

/-! ### Ids -/

/-- `UNHEX_VALUES`. -/
def unhexValues : List UInt8 := [
  0,  0,  0,  0,  0,  0,  0,  0,  0,  0,  0,  0,  0,  0,  0,  0,
  0,  0,  0,  0,  0,  0,  0,  0,  0,  0,  0,  0,  0,  0,  0,  0,
  0,  0,  0,  0,  0,  0,  0,  0,  0,  0,  0,  0,  0,  0,  0,  0,
  0,  1,  2,  3,  4,  5,  6,  7,  8,  9,  0,  0,  0,  0,  0,  0,
  0, 10, 11, 12, 13, 14, 15,  0,  0,  0,  0,  0,  0,  0,  0,  0,
  0,  0,  0,  0,  0,  0,  0,  0,  0,  0,  0,  0,  0,  0,  0,  0,
  0, 10, 11, 12, 13, 14, 15,  0,  0,  0,  0,  0,  0,  0,  0,  0,
  0,  0,  0,  0,  0,  0,  0,  0,  0,  0,  0,  0,  0,  0,  0,  0]

/-- A load from `UNHEX_VALUES`, or from what is behind it. -/
def unhex (behind : ℕ → UInt8) (c : UInt8) : UInt8 :=
  unhexValues.getD c.toNat (behind (c.toNat - unhexValues.length))

/-- `a0_hash_uuid_fn`. -/
def hashUuid (behind : ℕ → UInt8) (uuid : Uuid) : Except Err ℕ :=
  let at' i := unhex behind (uuid.bytes.getD i 0)
  let hashBytes := [at' 0 <<< 4 ||| at' 1, at' 2 <<< 4 ||| at' 3, at' 4 <<< 4 ||| at' 5, at' 6 <<< 4 ||| at' 7,
    at' 9 <<< 4 ||| at' 10, at' 11 <<< 4 ||| at' 12, at' 13 <<< 4 ||| at' 15, at' 16 <<< 4 ||| at' 17]
  .ok (hashBytes.foldr (fun b n => b.toNat + 256 * n) 0)

/-- `a0_cmp_uuid_fn`. -/
def cmpUuid (lhs rhs : Uuid) : Except Err ℤ := .ok (memcmp lhs.bytes rhs.bytes)

theorem cmpUuid_eq_zero (lhs rhs : Uuid) : cmpUuid lhs rhs = .ok 0 ↔ lhs = rhs := by
  obtain ⟨as, ha⟩ := lhs
  obtain ⟨bs, hb⟩ := rhs
  rw [cmpUuid, Except.ok.injEq, memcmp_eq_zero (ha.trans hb.symm), Uuid.mk.injEq]

end AlephZero
