import AlephZero.Cmp
import AlephZero.Strconv
import Mathlib

/-!
# Ids

`a0_uuidv4`, with the four words of 32 random bits, and what `a0_hash_uuid_fn` keeps of them. The words
are in memory with their low bytes first.

## What is proved

* `uuidv4_format` — the ids have the format of version 4.
* `hashUuid_uuidv4` — the hash is the first word and the second one, without four more of its bits: it
  takes the dash at 13 for a digit.
* **`hash_shares`** — so each value is the hash of 2^68 ids or of none, and the dash at 13 matters.
-/

namespace AlephZero

/-- `HEX_DIGITS`. -/
def hexDigits : List UInt8 := [
  "000102030405060708090A0B0C0D0E0F",
  "101112131415161718191A1B1C1D1E1F",
  "202122232425262728292A2B2C2D2E2F",
  "303132333435363738393A3B3C3D3E3F",
  "404142434445464748494A4B4C4D4E4F",
  "505152535455565758595A5B5C5D5E5F",
  "606162636465666768696A6B6C6D6E6F",
  "707172737475767778797A7B7C7D7E7F",
  "808182838485868788898A8B8C8D8E8F",
  "909192939495969798999A9B9C9D9E9F",
  "A0A1A2A3A4A5A6A7A8A9AAABACADAEAF",
  "B0B1B2B3B4B5B6B7B8B9BABBBCBDBEBF",
  "C0C1C2C3C4C5C6C7C8C9CACBCCCDCECF",
  "D0D1D2D3D4D5D6D7D8D9DADBDCDDDEDF",
  "E0E1E2E3E4E5E6E7E8E9EAEBECEDEEEF",
  "F0F1F2F3F4F5F6F7F8F9FAFBFCFDFEFF"].flatMap fun row => (CString.ofString row).bytes

/-- The two digits that are copied for a byte. -/
def hexPair (b : UInt8) : List UInt8 := (hexDigits.drop (b.toNat * 2)).take 2

/-- A digit. -/
def hexDigit (d : UInt8) : UInt8 := if d < 10 then 48 + d else 55 + d

/-- The two digits of a byte. -/
def high (b : UInt8) : UInt8 := hexDigit (b >>> 4)

def low (b : UInt8) : UInt8 := hexDigit (b &&& 15)

theorem hexDigits_eq : hexDigits = (List.range 256).flatMap fun n => [high (.ofNat n), low (.ofNat n)] := by
  decide +kernel

/-- The table has the two digits of each byte. -/
theorem hexPair_eq (b : UInt8) : hexPair b = [high b, low b] := by
  rw [hexPair, hexDigits_eq, pair_of_flatMap (fun _ => rfl) b.toNat_lt, UInt8.ofNat_toNat]

/-- What four calls of `a0_mrand48` give. -/
@[ext]
structure Words where
  w₀ : UInt32
  w₁ : UInt32
  w₂ : UInt32
  w₃ : UInt32
  deriving DecidableEq

/-- The bytes of a word in memory. -/
def wordBytes (w : UInt32) : List UInt8 := [w.toUInt8, (w >>> 8).toUInt8, (w >>> 16).toUInt8, (w >>> 24).toUInt8]

/-- The words of `a0_uuidv4`: the version and the variant are set. -/
def Words.data (words : Words) : List UInt32 :=
  [words.w₀, (words.w₁ &&& 0xFF0FFFFF) ||| 0x00400000, (words.w₂ &&& 0xFFFFFF3F) ||| 0x00000080, words.w₃]

/-- Where `a0_uuidv4` writes the two digits of each byte. -/
def layout (pair : ℕ → List UInt8) : List UInt8 :=
  [pair 0, pair 1, pair 2, pair 3, [45], pair 4, pair 5, [45], pair 6, pair 7, [45], pair 8, pair 9, [45],
    pair 10, pair 11, pair 12, pair 13, pair 14, pair 15, [0]].flatten

theorem length_layout {pair : ℕ → List UInt8} (h : ∀ i, (pair i).length = 2) : (layout pair).length = 37 := by
  simp only [layout, List.length_flatten, List.map_cons, List.map_nil, h]
  rfl

theorem length_hexPair (b : UInt8) : (hexPair b).length = 2 := by
  rw [hexPair_eq]
  rfl

/-- The bytes of the words. -/
def Words.bytes (words : Words) : List UInt8 := words.data.flatMap wordBytes

/-- `a0_uuidv4`. -/
def uuidv4 (words : Words) : Uuid :=
  ⟨layout fun i => hexPair (words.bytes.getD i 0), length_layout fun _ => length_hexPair _⟩

/-! ### The bytes -/

theorem masked (w mask bits s : UInt32) : (((w &&& mask) ||| bits) >>> s).toUInt8 =
    ((w >>> s).toUInt8 &&& (mask >>> s).toUInt8) ||| (bits >>> s).toUInt8 := by
  rw [UInt32.shiftRight_or, UInt32.shiftRight_and, UInt32.toUInt8_or, UInt32.toUInt8_and]

theorem and_or_self : ∀ b : UInt8, (b &&& 255) ||| 0 = b := by decide +kernel

/-- The version is in the third byte of the second word. -/
theorem wordBytes_version (w : UInt32) : wordBytes ((w &&& 0xFF0FFFFF) ||| 0x00400000) =
    [w.toUInt8, (w >>> 8).toUInt8, ((w >>> 16).toUInt8 &&& 15) ||| 64, (w >>> 24).toUInt8] := by
  have h₀ : ((w &&& 0xFF0FFFFF) ||| 0x00400000).toUInt8 = w.toUInt8 := by
    rw [UInt32.toUInt8_or, UInt32.toUInt8_and]
    exact and_or_self _
  rw [wordBytes, h₀, masked, masked, masked]
  simp only [List.cons.injEq, and_true, true_and]
  exact ⟨and_or_self _, rfl, and_or_self _⟩

/-- The variant is in the first byte of the third word. -/
theorem wordBytes_variant (w : UInt32) : wordBytes ((w &&& 0xFFFFFF3F) ||| 0x00000080) =
    [(w.toUInt8 &&& 63) ||| 128, (w >>> 8).toUInt8, (w >>> 16).toUInt8, (w >>> 24).toUInt8] := by
  have h₀ : ((w &&& 0xFFFFFF3F) ||| 0x00000080).toUInt8 = (w.toUInt8 &&& 63) ||| 128 := by
    rw [UInt32.toUInt8_or, UInt32.toUInt8_and]
    rfl
  rw [wordBytes, h₀, masked, masked, masked]
  simp only [List.cons.injEq, and_true, true_and]
  exact ⟨and_or_self _, and_or_self _, and_or_self _⟩

theorem Words.bytes_eq (words : Words) : words.bytes = wordBytes words.w₀ ++
    [words.w₁.toUInt8, (words.w₁ >>> 8).toUInt8, ((words.w₁ >>> 16).toUInt8 &&& 15) ||| 64,
      (words.w₁ >>> 24).toUInt8] ++
    [(words.w₂.toUInt8 &&& 63) ||| 128, (words.w₂ >>> 8).toUInt8, (words.w₂ >>> 16).toUInt8,
      (words.w₂ >>> 24).toUInt8] ++
    wordBytes words.w₃ := by
  rw [bytes, data, List.flatMap_cons, List.flatMap_cons, List.flatMap_cons, List.flatMap_cons, List.flatMap_nil,
    wordBytes_version, wordBytes_variant]
  rfl

/-- The byte of an id at an offset. -/
def Uuid.at (uuid : Uuid) (i : ℕ) : UInt8 := uuid.bytes.getD i 0

/-- The byte at each offset of an id. -/
def digits (b : ℕ → UInt8) : List UInt8 :=
  [high (b 0), low (b 0), high (b 1), low (b 1), high (b 2), low (b 2), high (b 3), low (b 3), 45,
    high (b 4), low (b 4), high (b 5), low (b 5), 45, high (b 6), low (b 6), high (b 7), low (b 7), 45,
    high (b 8), low (b 8), high (b 9), low (b 9), 45, high (b 10), low (b 10), high (b 11), low (b 11),
    high (b 12), low (b 12), high (b 13), low (b 13), high (b 14), low (b 14), high (b 15), low (b 15), 0]

theorem layout_pairs (b : ℕ → UInt8) : layout (fun i => [high (b i), low (b i)]) = digits b := rfl

theorem uuidv4_bytes (words : Words) : (uuidv4 words).bytes = digits fun i => words.bytes.getD i 0 := by
  have hpair : (fun i => hexPair (words.bytes.getD i 0)) =
      fun i => [high (words.bytes.getD i 0), low (words.bytes.getD i 0)] := funext fun _ => hexPair_eq _
  exact (congrArg layout hpair).trans (layout_pairs _)

/-- The bytes with the version and with the variant. -/
theorem byte_version (words : Words) : words.bytes.getD 6 0 = ((words.w₁ >>> 16).toUInt8 &&& 15) ||| 64 := by
  rw [Words.bytes_eq]
  rfl

theorem byte_variant (words : Words) : words.bytes.getD 8 0 = (words.w₂.toUInt8 &&& 63) ||| 128 := by
  rw [Words.bytes_eq]
  rfl

/-! ### The format -/

/-- A digit, in upper case. -/
def UpperHex (c : UInt8) : Prop := 48 ≤ c ∧ c ≤ 57 ∨ 65 ≤ c ∧ c ≤ 70

instance (c : UInt8) : Decidable (UpperHex c) := inferInstanceAs (Decidable (_ ∨ _))

/-- The format of an id. -/
structure Format (uuid : Uuid) : Prop where
  dash : ∀ i < 36, uuid.at i = 45 ↔ i ∈ [8, 13, 18, 23]
  version : uuid.at 14 = 52
  variant : uuid.at 19 ∈ [56, 57, 65, 66]
  digit : ∀ i < 36, i ∉ [8, 13, 18, 23] → UpperHex (uuid.at i)
  null : uuid.at 36 = 0

theorem upperHex_high : ∀ b : UInt8, UpperHex (high b) := by decide +kernel

theorem upperHex_low : ∀ b : UInt8, UpperHex (low b) := by decide +kernel

theorem high_version : ∀ b : UInt8, high ((b &&& 15) ||| 64) = 52 := by decide +kernel

theorem high_variant : ∀ b : UInt8, high ((b &&& 63) ||| 128) ∈ [56, 57, 65, 66] := by decide +kernel

/-- The format of the digits of any bytes with a version and a variant. -/
theorem format_digits {uuid : Uuid} {b : ℕ → UInt8} (hbytes : uuid.bytes = digits b) (hversion : high (b 6) = 52)
    (hvariant : high (b 8) ∈ [56, 57, 65, 66]) : Format uuid := by
  have hdash : ∀ i ∈ [8, 13, 18, 23], uuid.at i = 45 := by
    simp [Uuid.at, hbytes, digits]
  have hdigit : ∀ i < 36, i ∉ [8, 13, 18, 23] → UpperHex (uuid.at i) := by
    intro i hi hno
    rw [Uuid.at, hbytes, digits]
    interval_cases i
    all_goals simp only [List.getD_cons_zero, List.getD_cons_succ]
    all_goals first
      | with_reducible exact upperHex_high _
      | with_reducible exact upperHex_low _
      | exact absurd (by decide) hno
  refine ⟨fun i hi => ⟨fun h => ?_, hdash i⟩, ?_, ?_, hdigit, ?_⟩
  · by_contra hno
    have hupper := hdigit i hi hno
    rw [h] at hupper
    exact absurd hupper (by decide)
  · rw [Uuid.at, hbytes]
    exact hversion
  · rw [Uuid.at, hbytes]
    exact hvariant
  · rw [Uuid.at, hbytes]
    rfl

/-- **The ids have the format**, whatever the words are. -/
theorem uuidv4_format (words : Words) : Format (uuidv4 words) := by
  refine format_digits (uuidv4_bytes words) ?_ ?_
  · rw [byte_version]
    exact high_version _
  · rw [byte_variant]
    exact high_variant _

/-! ### The hash -/

section Hash

variable (behind : ℕ → UInt8)

theorem unhex_eq {c d : UInt8} (h : unhexValues[c.toNat]? = some d) : unhex behind c = d := by
  rw [unhex, List.getD_eq_getElem?_getD, h]
  rfl

theorem unhex_dash : unhex behind 45 = 0 := unhex_eq behind rfl

theorem unhex_one : unhex behind 49 = 1 := unhex_eq behind rfl

theorem unhexValues_high : ∀ b : UInt8, unhexValues[(high b).toNat]? = some (b >>> 4) := by decide +kernel

theorem unhexValues_low : ∀ b : UInt8, unhexValues[(low b).toNat]? = some (b &&& 15) := by decide +kernel

/-- A byte is put together from its digits. -/
theorem unhex_pair (b : UInt8) : unhex behind (high b) <<< 4 ||| unhex behind (low b) = b := by
  have hjoin : ∀ b : UInt8, (b >>> 4) <<< 4 ||| (b &&& 15) = b := by decide +kernel
  rw [unhex_eq behind (unhexValues_high b), unhex_eq behind (unhexValues_low b), hjoin]

/-- The number with these bytes, the lowest one first. -/
def little (bytes : List UInt8) : ℕ := bytes.foldr (fun b n => b.toNat + 256 * n) 0

/-- The bytes that are hashed, with the digit at 13. -/
def hashBytes (c : UInt8) (b : ℕ → UInt8) : List UInt8 :=
  [b 0, b 1, b 2, b 3, b 4, b 5, unhex behind c <<< 4 ||| (b 6 &&& 15), b 7]

/-- The hash of an id whose byte at 13 is any. -/
theorem hashUuid_digits {uuid : Uuid} {b : ℕ → UInt8} (c : UInt8) (hbytes : uuid.bytes = (digits b).set 13 c) :
    hashUuid behind uuid = .ok (little (hashBytes behind c b)) := by
  have hlow := unhex_eq behind (unhexValues_low (b 6))
  simp only [hashUuid, hbytes, digits, List.set_cons_zero, List.set_cons_succ, List.getD_cons_zero,
    List.getD_cons_succ, unhex_pair, hlow]
  rfl

/-- The byte at an offset is another one. -/
def Uuid.set (uuid : Uuid) (i : ℕ) (c : UInt8) : Uuid := ⟨uuid.bytes.set i c, by rw [List.length_set, uuid.length_eq]⟩

/-- The hash does not depend on the byte at an offset. -/
def Ignores (uuid : Uuid) (i : ℕ) : Prop := ∀ c, hashUuid behind (uuid.set i c) = hashUuid behind uuid

/-- The offsets that are loaded. -/
def hashed : List ℕ := [0, 1, 2, 3, 4, 5, 6, 7, 9, 10, 11, 12, 13, 15, 16, 17]

theorem ignores_of_not_hashed (uuid : Uuid) {i : ℕ} (hi : i ∉ hashed) : Ignores behind uuid i := by
  intro c
  have hget : ∀ j ∈ hashed, (uuid.set i c).bytes.getD j 0 = uuid.bytes.getD j 0 := by
    intro j hj
    have hne : i ≠ j := fun h => hi (h ▸ hj)
    rw [Uuid.set, List.getD_eq_getElem?_getD, List.getElem?_set_ne hne, ← List.getD_eq_getElem?_getD]
  simp only [hashed, List.forall_mem_cons] at hget
  simp only [hashUuid, hget]

/-- The digit at 13 is a part of the hash. -/
theorem not_ignores (words : Words) : ¬ Ignores behind (uuidv4 words) 13 := by
  intro h
  have hdash : (uuidv4 words).bytes = (digits fun i => words.bytes.getD i 0).set 13 45 := uuidv4_bytes words
  have hset : ((uuidv4 words).set 13 49).bytes = (digits fun i => words.bytes.getD i 0).set 13 49 :=
    congrArg (List.set · 13 49) (uuidv4_bytes words)
  have hdigit : ∀ b : UInt8,
      ((1 : UInt8) <<< 4 ||| (b &&& 15)).toNat = ((0 : UInt8) <<< 4 ||| (b &&& 15)).toNat + 16 := by
    decide +kernel
  have heq := h 49
  rw [hashUuid_digits behind 49 hset, hashUuid_digits behind 45 hdash, Except.ok.injEq] at heq
  simp only [hashBytes, little, List.foldr_cons, List.foldr_nil, unhex_dash, unhex_one, hdigit] at heq
  omega

theorem toNat_toUInt8_shift (w : UInt32) : w.toUInt8.toNat = w.toNat % 256 ∧
    (w >>> 8).toUInt8.toNat = w.toNat / 256 % 256 ∧ (w >>> 16).toUInt8.toNat = w.toNat / 65536 % 256 ∧
    (w >>> 24).toUInt8.toNat = w.toNat / 16777216 % 256 := by
  simp [UInt32.toNat_toUInt8, UInt32.toNat_shiftRight, Nat.shiftRight_eq_div_pow]

/-- The number of the four bytes of a word, and of those of one without four of its bits. -/
theorem word_bytes {n : ℕ} (h : n < 2 ^ 32) (m : ℕ) :
    n % 256 + 256 * (n / 256 % 256 + 256 * (n / 65536 % 256 + 256 * (n / 16777216 % 256 + 256 * m))) =
      n + 2 ^ 32 * m := by
  omega

theorem word_bytes_masked {n : ℕ} (h : n < 2 ^ 32) :
    n % 256 + 256 * (n / 256 % 256 + 256 * (n / 65536 % 256 % 16 + 256 * (n / 16777216 % 256 + 256 * 0))) =
      n % 2 ^ 20 + 2 ^ 24 * (n / 2 ^ 24) := by
  omega

/-- **The hash of an id** has the first word, and the second one without four of its bits. -/
theorem hashUuid_uuidv4 (words : Words) : hashUuid behind (uuidv4 words) =
    .ok (words.w₀.toNat + 2 ^ 32 * (words.w₁.toNat % 2 ^ 20 + 2 ^ 24 * (words.w₁.toNat / 2 ^ 24))) := by
  have hdash : (uuidv4 words).bytes = (digits fun i => words.bytes.getD i 0).set 13 45 := uuidv4_bytes words
  have hversion : ∀ b : UInt8, ((0 : UInt8) <<< 4 ||| (((b &&& 15) ||| 64) &&& 15)).toNat = b.toNat % 16 := by
    decide +kernel
  obtain ⟨h₀, h₁, h₂, h₃⟩ := toNat_toUInt8_shift words.w₀
  obtain ⟨k₀, k₁, k₂, k₃⟩ := toNat_toUInt8_shift words.w₁
  rw [hashUuid_digits behind 45 hdash, Except.ok.injEq, Words.bytes_eq]
  simp only [hashBytes, little, wordBytes, List.cons_append, List.nil_append, List.getD_cons_zero,
    List.getD_cons_succ, List.foldr_cons, List.foldr_nil, unhex_dash, hversion, h₀, h₁, h₂, h₃, k₀, k₁, k₂, k₃]
  rw [word_bytes words.w₀.toNat_lt, word_bytes_masked words.w₁.toNat_lt]

/-! ### How many ids have a hash -/

/-- How many of the 2^128 inputs give this hash. -/
noncomputable def share (v : ℕ) : ℕ := Nat.card {words : Words // hashUuid behind (uuidv4 words) = .ok v}

theorem card_uint32 : Nat.card UInt32 = 2 ^ 32 := by
  rw [Nat.card_eq_fintype_card, ← FinEnum.card_eq_fintypeCard]
  rfl

/-- The inputs with a hash: four bits of the second word, and the two last words. -/
def preimage (v : ℕ) (p : Fin 16 × UInt32 × UInt32) : Words :=
  ⟨.ofNat (v % 2 ^ 32), .ofNat (v / 2 ^ 32 % 2 ^ 20 + 2 ^ 20 * p.1 + 2 ^ 24 * (v / 2 ^ 56)), p.2.1, p.2.2⟩

theorem preimage_toNat {v : ℕ} (hv : v < 2 ^ 64) (p : Fin 16 × UInt32 × UInt32) :
    (preimage v p).w₀.toNat = v % 2 ^ 32 ∧
      (preimage v p).w₁.toNat = v / 2 ^ 32 % 2 ^ 20 + 2 ^ 20 * p.1 + 2 ^ 24 * (v / 2 ^ 56) := by
  have hk := p.1.isLt
  constructor
  · exact UInt32.toNat_ofNat_of_lt' (show v % 2 ^ 32 < 2 ^ 32 by omega)
  · exact UInt32.toNat_ofNat_of_lt'
      (show v / 2 ^ 32 % 2 ^ 20 + 2 ^ 20 * p.1 + 2 ^ 24 * (v / 2 ^ 56) < 2 ^ 32 by omega)

/-- **Each value has 2^68 inputs or none**: none if one of the four bits is set. -/
theorem share_eq {v : ℕ} (hv : v < 2 ^ 64) : share behind v = if v / 2 ^ 52 % 16 = 0 then 2 ^ 68 else 0 := by
  rw [share]
  split_ifs with hbits
  · have hhash (p : Fin 16 × UInt32 × UInt32) : hashUuid behind (uuidv4 (preimage v p)) = .ok v := by
      obtain ⟨h₀, h₁⟩ := preimage_toNat hv p
      have hk := p.1.isLt
      rw [hashUuid_uuidv4, h₀, h₁, Except.ok.injEq]
      omega
    have hbij : Function.Bijective
        fun p => (⟨preimage v p, hhash p⟩ : {words // hashUuid behind (uuidv4 words) = .ok v}) := by
      constructor
      · intro p q heq
        have hwords : preimage v p = preimage v q := congrArg Subtype.val heq
        have h₁ := (preimage_toNat hv p).2
        rw [hwords, (preimage_toNat hv q).2] at h₁
        have h₂ : p.2.1 = q.2.1 := congrArg Words.w₂ hwords
        have h₃ : p.2.2 = q.2.2 := congrArg Words.w₃ hwords
        exact Prod.ext (Fin.ext (by omega)) (Prod.ext h₂ h₃)
      · rintro ⟨words, hwords⟩
        rw [hashUuid_uuidv4, Except.ok.injEq] at hwords
        have hlt := words.w₀.toNat_lt
        have hlt' := words.w₁.toNat_lt
        refine ⟨(⟨words.w₁.toNat / 2 ^ 20 % 16, by omega⟩, words.w₂, words.w₃), Subtype.ext ?_⟩
        obtain ⟨h₀, h₁⟩ := preimage_toNat hv (⟨words.w₁.toNat / 2 ^ 20 % 16, by omega⟩, words.w₂, words.w₃)
        have hw₀ : (preimage v (⟨words.w₁.toNat / 2 ^ 20 % 16, by omega⟩, words.w₂, words.w₃)).w₀ = words.w₀ :=
          UInt32.toNat.inj (by rw [h₀]; omega)
        have hw₁ : (preimage v (⟨words.w₁.toNat / 2 ^ 20 % 16, by omega⟩, words.w₂, words.w₃)).w₁ = words.w₁ :=
          UInt32.toNat.inj (by rw [h₁]; simp only; omega)
        exact Words.ext hw₀ hw₁ rfl rfl
    rw [← Nat.card_eq_of_bijective _ hbij, Nat.card_prod, Nat.card_prod, card_uint32, Nat.card_fin]
    rfl
  · have hnone : IsEmpty {words : Words // hashUuid behind (uuidv4 words) = .ok v} := by
      refine ⟨?_⟩
      rintro ⟨words, hwords⟩
      rw [hashUuid_uuidv4, Except.ok.injEq] at hwords
      have hlt := words.w₀.toNat_lt
      have hlt' := words.w₁.toNat_lt
      omega
    exact Nat.card_of_isEmpty

/-- What is asked of ids and their hashes: the fixed bytes do not matter, and each value is the hash of
equally many of them. -/
structure KeepsBits (words : Words) (v : ℕ) : Prop where
  format : Format (uuidv4 words)
  ignores : ∀ i ∈ [8, 13, 14, 18, 19, 23], Ignores behind (uuidv4 words) i
  share : share behind v = 2 ^ 64

/-- **The hash keeps 60 bits**: the dash at 13 is taken for one of its digits, and of the values only
those with a zero there are hashes at all. -/
theorem hash_shares (words : Words) (v : UInt64) :
    Format (uuidv4 words) ∧
      (∀ i ∈ [8, 13, 14, 18, 19, 23], Ignores behind (uuidv4 words) i ↔ i ≠ 13) ∧
      share behind v.toNat = (if v.toNat / 2 ^ 52 % 16 = 0 then 2 ^ 68 else 0) ∧
      ¬ KeepsBits behind words v.toNat := by
  have hshare := share_eq behind v.toNat_lt
  refine ⟨uuidv4_format words, fun i hi => ⟨?_, fun hne => ignores_of_not_hashed behind _ ?_⟩, hshare, ?_⟩
  · rintro h rfl
    exact not_ignores behind words h
  · simp only [List.mem_cons, List.not_mem_nil, or_false] at hi
    rcases hi with rfl | rfl | rfl | rfl | rfl | rfl
    all_goals first
      | exact absurd rfl hne
      | decide
  · intro h
    exact not_ignores behind words (h.ignores 13 (by decide))

/-- The value 2^52 is the hash of no id. -/
theorem not_keepsBits :
    (∀ words, hashUuid (fun _ => 0) (uuidv4 words) ≠ .ok (2 ^ 52)) ∧
      ¬ KeepsBits (fun _ => 0) ⟨0, 0, 0, 0⟩ (2 ^ 52) := by
  constructor
  · intro words h
    rw [hashUuid_uuidv4, Except.ok.injEq] at h
    have hlt := words.w₀.toNat_lt
    omega
  · intro h
    have hshare := h.share
    rw [share_eq _ (by norm_num)] at hshare
    norm_num at hshare

end Hash

end AlephZero
