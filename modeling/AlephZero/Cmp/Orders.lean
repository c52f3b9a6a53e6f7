import AlephZero.Cmp
import AlephZero.Machine.Comparison
import Mathlib.Data.List.Lex
import Mathlib.Data.Prod.Lex

/-!
# Orders of keys

Which of the comparisons of `cmp.c` are total orders, and of which keys.

## What is proved

* `memcmp_neg_iff`, `memcmp_terminated_neg_iff` — `memcmp` and `strcmp` order bytes as
  lists.
* `cmpPtr_total_iff` — pointers are ordered if and only if their low 32 bits lie within half
  of the circle and are all different.
* `cmpBuf_total_iff` — buffers are ordered if and only if different sizes are different as
  `int`, and less than 2^31 apart.
* `comparators_iff` — numbers, strings and ids always are.
-/

namespace AlephZero

open Comparison

/-- What the map asks of its callbacks, for keys of a set: comparison is a total order, and
keys that compare equal have one hash. -/
structure Consistent {K : Type} (hash : K → Except Err ℕ) (cmp : K → K → Option (Except Err ℤ)) (S : Set K) :
    Prop where
  total : TotalOn (fun a b => (cmp a b).bind Except.toOption) S
  hash : ∀ a ∈ S, ∀ b ∈ S, cmp a b = some (.ok 0) → ∃ n, hash a = .ok n ∧ hash b = .ok n

/-- Keys that compare equal are equal, so it is the order that counts. -/
theorem consistent_iff {K : Type} {hash : K → Except Err ℕ} {cmp : K → K → Option (Except Err ℤ)} {S : Set K}
    (hhash : ∀ a, ∃ n, hash a = .ok n) :
    Consistent hash cmp S ↔ TotalOn (fun a b => (cmp a b).bind Except.toOption) S := by
  constructor
  · exact fun h => h.total
  · intro h
    refine ⟨h, fun a ha b hb hab => ?_⟩
    have hzero : (cmp a b).bind Except.toOption = some 0 := by
      rw [hab]
      rfl
    obtain ⟨n, hn⟩ := hhash a
    rw [(h.zero a ha b hb).mp hzero] at hn ⊢
    exact ⟨n, hn, hn⟩

/-! ### Bytes -/

/-- The bytes as numbers. -/
def nums (bytes : List UInt8) : List ℕ := bytes.map UInt8.toNat

theorem nums_injective : Function.Injective nums := List.map_injective_iff.mpr fun _ _ h => UInt8.toNat.inj h

/-- The first byte that differs decides. -/
theorem memcmp_neg_iff {as bs : List UInt8} (h : as.length = bs.length) : memcmp as bs < 0 ↔ nums as < nums bs := by
  induction as generalizing bs with
  | nil =>
    cases bs with
    | nil => simp [memcmp, nums]
    | cons b bs => cases h
  | cons a as ih =>
    cases bs with
    | nil => cases h
    | cons b bs =>
      rw [memcmp, nums, nums, List.map_cons, List.map_cons, List.cons_lt_cons_iff]
      split_ifs with hab
      · rw [ih (by simpa using h), hab]
        simp [nums]
      · have hne : a.toNat ≠ b.toNat := fun he => hab (UInt8.toNat.inj he)
        simp only [hne, false_and, or_false]
        omega

theorem memcmp_terminated_neg_iff {as bs : List UInt8} (ha : 0 ∉ as) (hb : 0 ∉ bs) :
    memcmp (as ++ [0]) (bs ++ [0]) < 0 ↔ nums as < nums bs := by
  induction as generalizing bs with
  | nil =>
    cases bs with
    | nil => simp [memcmp, nums]
    | cons b bs =>
      have hb₀ : (0 : UInt8) ≠ b := fun h => hb (h ▸ List.mem_cons_self)
      have hne : b.toNat ≠ 0 := fun h => hb₀ (UInt8.toNat.inj h.symm)
      simp [memcmp, nums, hb₀]
      omega
  | cons a as ih =>
    cases bs with
    | nil =>
      have ha₀ : a ≠ 0 := fun h => ha (h ▸ List.mem_cons_self)
      simp [memcmp, nums, ha₀]
    | cons b bs =>
      rw [List.cons_append, List.cons_append, memcmp, nums, nums, List.map_cons, List.map_cons, List.cons_lt_cons_iff]
      split_ifs with hab
      · rw [ih (fun h => ha (List.mem_cons_of_mem _ h)) (fun h => hb (List.mem_cons_of_mem _ h)), hab]
        simp [nums]
      · have hne : a.toNat ≠ b.toNat := fun he => hab (UInt8.toNat.inj he)
        simp only [hne, false_and, or_false]
        omega

/-! ### Comparisons that follow an order -/

theorem cmpU32_total : TotalOn (fun a b => (some (cmpU32 a b)).bind Except.toOption) Set.univ := by
  apply TotalOn.of_linear UInt32.toNat
  · exact fun a _ b _ hab => UInt32.toNat.inj hab
  · intro a _ b _
    refine ⟨_, rfl, ?_, ?_⟩
    · split_ifs <;> omega
    · split_ifs <;> omega

theorem cmpStr_total : TotalOn (fun a b => (some (cmpStr a b)).bind Except.toOption) Set.univ := by
  apply TotalOn.of_linear fun a : CString => nums a.bytes
  · rintro ⟨as, ha⟩ - ⟨bs, hb⟩ - hab
    exact CString.mk.injEq .. ▸ nums_injective hab
  · rintro ⟨as, ha⟩ - ⟨bs, hb⟩ -
    refine ⟨_, rfl, memcmp_terminated_neg_iff ha hb, ?_⟩
    exact (memcmp_terminated ha hb).trans nums_injective.eq_iff.symm

theorem cmpUuid_total : TotalOn (fun a b => (some (cmpUuid a b)).bind Except.toOption) Set.univ := by
  apply TotalOn.of_linear fun a : Uuid => nums a.bytes
  · rintro ⟨as, ha⟩ - ⟨bs, hb⟩ - hab
    exact Uuid.mk.injEq .. ▸ nums_injective hab
  · rintro ⟨as, ha⟩ - ⟨bs, hb⟩ -
    refine ⟨_, rfl, memcmp_neg_iff (ha.trans hb.symm), ?_⟩
    exact (memcmp_eq_zero (ha.trans hb.symm)).trans nums_injective.eq_iff.symm

/-! ### Pointers -/

/-- The difference of two pointers, as an `int`. -/
theorem cmpPtr_eq (a b : UInt64) : cmpPtr a b = .ok (((a.toNat : ℤ) - b.toNat).bmod (2 ^ 32)) := by
  have ha := a.toNat_lt
  have hb := b.toNat_lt
  have hsub : ((a - b).toNat : ℤ) = ((a.toNat : ℤ) - b.toNat) % 2 ^ 64 := by
    rw [UInt64.toNat_sub]
    omega
  have hcongr : ((a - b).toNat : ℤ) % (2 ^ 32 : ℕ) = ((a.toNat : ℤ) - b.toNat) % (2 ^ 32 : ℕ) := by
    rw [hsub]
    omega
  apply congrArg Except.ok
  calc
    toInt32 (a - b).toNat = (((a - b).toNat : ℤ) % (2 ^ 32 : ℕ)).bmod (2 ^ 32) := (Int.emod_bmod ..).symm
    _ = _ := by rw [hcongr, Int.emod_bmod]

/-- The low 32 bits of the pointers lie within half of the circle. -/
def HalfCircle (S : Set UInt64) : Prop := ∃ c : UInt64, ∀ a ∈ S, ((a.toNat : ℤ) - c.toNat) % 2 ^ 32 < 2 ^ 31

/-- **Pointers are ordered** if and only if their low 32 bits lie within half of the circle
and are all different. -/
theorem cmpPtr_total_iff (S : Set UInt64) :
    TotalOn (fun a b => (some (cmpPtr a b)).bind Except.toOption) S ↔
      Set.InjOn (fun a : UInt64 => (a.toNat : ℤ) % 2 ^ 32) S ∧ HalfCircle S := by
  have hdouble : (2 * 2 ^ 31 : ℕ) = 2 ^ 32 := by norm_num
  have hcmp : ∀ a ∈ S, ∀ b ∈ S, (some (cmpPtr a b)).bind Except.toOption =
      some (((a.toNat : ℤ) - b.toNat).bmod (2 * 2 ^ 31)) := by
    intro a _ b _
    rw [cmpPtr_eq, hdouble]
    rfl
  constructor
  · intro htotal
    rcases S.eq_empty_or_nonempty with rfl | hne
    · exact ⟨Set.injOn_empty _, 0, fun a ha => ha.elim⟩
    · obtain ⟨hinj, c, -, hhalf⟩ := (totalOn_circle_iff hcmp (by norm_num) hne).mp htotal
      rw [hdouble] at hinj hhalf
      exact ⟨hinj, c, hhalf⟩
  · rintro ⟨hinj, c, hhalf⟩
    have hhalf' : ∀ a ∈ S, ((a.toNat : ℤ) - c.toNat) % (2 * 2 ^ 31 : ℕ) < (2 ^ 31 : ℕ) := hhalf
    exact totalOn_circle_of hcmp (by norm_num) hinj c.toNat hhalf'

/-! ### Buffers -/

theorem cmpBuf_of_ne {a b : BufKey} (hne : a.data.length ≠ b.data.length) :
    cmpBuf a b =
      if -2 ^ 31 ≤ toInt32 a.data.length - toInt32 b.data.length ∧
          toInt32 a.data.length - toInt32 b.data.length < 2 ^ 31 then
        some (.ok (toInt32 a.data.length - toInt32 b.data.length))
      else none :=
  if_pos hne

theorem cmpBuf_of_eq {a b : BufKey} (heq : a.data.length = b.data.length) :
    cmpBuf a b = some (.ok (memcmp a.data b.data)) :=
  if_neg (not_not.mpr heq)

/-- **Buffers are ordered** if and only if different sizes are different as `int`, and less
than 2^31 apart. -/
theorem cmpBuf_total_iff (S : Set BufKey) :
    TotalOn (fun a b => (cmpBuf a b).bind Except.toOption) S ↔
      ∀ a ∈ S, ∀ b ∈ S, a.data.length ≠ b.data.length →
        toInt32 a.data.length ≠ toInt32 b.data.length ∧ |toInt32 a.data.length - toInt32 b.data.length| < 2 ^ 31 := by
  constructor
  · intro htotal a ha b hb hne
    obtain ⟨c, hc⟩ := htotal.defined a ha b hb
    obtain ⟨d, hd⟩ := htotal.defined b hb a ha
    have hzero := mt (htotal.zero a ha b hb).mp fun hab => hne (congrArg (fun a => a.data.length) hab)
    rw [cmpBuf_of_ne hne] at hc hzero
    rw [cmpBuf_of_ne hne.symm] at hd
    split_ifs at hc hd hzero with hfits hfits'
    · constructor
      · intro heq
        apply hzero
        rw [heq, sub_self]
        rfl
      · rw [abs_lt]
        omega
    · cases hd
    · cases hc
    · cases hc
  · intro h
    apply TotalOn.of_linear fun a : BufKey => toLex (toInt32 a.data.length, nums a.data)
    · rintro ⟨as, ha⟩ - ⟨bs, hb⟩ - hab
      have hdata := nums_injective (congrArg (fun p => (ofLex p).2) hab)
      exact BufKey.mk.injEq .. ▸ hdata
    · intro a ha b hb
      by_cases hlen : a.data.length = b.data.length
      · refine ⟨memcmp a.data b.data, by rw [cmpBuf_of_eq hlen]; rfl, ?_, ?_⟩
        · rw [memcmp_neg_iff hlen, hlen, Prod.Lex.toLex_lt_toLex]
          simp
        · rw [memcmp_eq_zero hlen, hlen, toLex_inj, Prod.mk.injEq, nums_injective.eq_iff]
          simp
      · obtain ⟨hne, habs⟩ := h a ha b hb hlen
        rw [abs_lt] at habs
        refine ⟨toInt32 a.data.length - toInt32 b.data.length, ?_, ?_, ?_⟩
        · rw [cmpBuf_of_ne hlen, if_pos (by omega)]
          rfl
        · rw [Prod.Lex.toLex_lt_toLex, sub_neg]
          simp [hne]
        · rw [sub_eq_zero, toLex_inj, Prod.mk.injEq]
          simp [hne]

/-! ### All of them -/

/-- **The comparisons are total orders that agree with the hashes**: those of numbers, strings
and ids on all keys, that of pointers on keys whose low 32 bits are different and within half
of the circle, and that of buffers on keys whose sizes are equal, or different as `int` and
less than 2^31 apart. -/
theorem comparators_iff (behind : ℕ → UInt8) (ptrs : Set UInt64) (bufs : Set BufKey) :
    Consistent hashU32 (fun a b => some (cmpU32 a b)) Set.univ ∧
    Consistent hashStr (fun a b => some (cmpStr a b)) Set.univ ∧
    Consistent (hashUuid behind) (fun a b => some (cmpUuid a b)) Set.univ ∧
    (Consistent hashPtr (fun a b => some (cmpPtr a b)) ptrs ↔
      Set.InjOn (fun a : UInt64 => (a.toNat : ℤ) % 2 ^ 32) ptrs ∧ HalfCircle ptrs) ∧
    (Consistent hashBuf cmpBuf bufs ↔
      ∀ a ∈ bufs, ∀ b ∈ bufs, a.data.length ≠ b.data.length →
        toInt32 a.data.length ≠ toInt32 b.data.length ∧
          |toInt32 a.data.length - toInt32 b.data.length| < 2 ^ 31) := by
  refine ⟨?_, ?_, ?_, ?_, ?_⟩
  · exact (consistent_iff fun a => ⟨_, rfl⟩).mpr cmpU32_total
  · exact (consistent_iff fun a => ⟨_, rfl⟩).mpr cmpStr_total
  · exact (consistent_iff fun a => ⟨_, rfl⟩).mpr cmpUuid_total
  · exact (consistent_iff fun a => ⟨_, rfl⟩).trans (cmpPtr_total_iff ptrs)
  · exact (consistent_iff fun a => ⟨_, rfl⟩).trans (cmpBuf_total_iff bufs)

/-- Two pointers 4 GiB apart compare equal. -/
theorem ptr_not_consistent : ¬ Consistent hashPtr (fun a b => some (cmpPtr a b)) Set.univ := by
  intro h
  have heq : (some (cmpPtr 0 0x100000000)).bind Except.toOption = some 0 := by decide
  have hkeys : (0 : UInt64) = 0x100000000 := (h.total.zero 0 trivial 0x100000000 trivial).mp heq
  exact absurd hkeys (by decide)

end AlephZero
