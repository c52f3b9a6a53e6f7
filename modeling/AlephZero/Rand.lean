import AlephZero.Machine.Congruential
import AlephZero.Machine.Forking
import AlephZero.Uuid

/-!
# Ids of different threads

`rand.c`, and the ids that `a0_uuidv4` makes in any number of threads and processes.

## The model

Each thread has a generator of 48 bits, `a0_xsubi`, which it reads from `/dev/urandom` before it
makes its first id. `jrand48` is the generator that POSIX says. The order in which `a0_uuidv4`
draws its four words is left open. `rand.c` has no handler for `fork`.

## What is proved

* `uuid_injective` — the generator is known from the id that is made of it, whatever the order.
* **`uuids_distinct`** — while only threads fork that have made no id, two ids are the same only
  if the generators of two threads meet.
* **`uuid_forked`** — whenever a thread forks that has made an id, its next one can be that of
  its child.
-/

namespace AlephZero

open Forking

/-! ### The generator -/

/-- The next state of `jrand48`. -/
def xsubiNext (xsubi : BitVec 48) : BitVec 48 := 0x5DEECE66D#48 * xsubi + 0xB#48

/-- What `jrand48` returns with this state, its high bits. -/
def xsubiHigh (xsubi : BitVec 48) : UInt32 := .ofBitVec (xsubi.extractLsb' 16 32)

/-- The four words of an id; the word `i` is the draw `order i`. -/
def uuidWords (order : Equiv.Perm (Fin 4)) (xsubi : BitVec 48) : Words :=
  ⟨xsubiHigh (xsubiNext^[order 0 + 1] xsubi), xsubiHigh (xsubiNext^[order 1 + 1] xsubi),
    xsubiHigh (xsubiNext^[order 2 + 1] xsubi), xsubiHigh (xsubiNext^[order 3 + 1] xsubi)⟩

/-- The id that is made of a generator. -/
def uuidOf (order : Equiv.Perm (Fin 4)) (xsubi : BitVec 48) : Uuid := uuidv4 (uuidWords order xsubi)

theorem xsubiNext_toNat (n : ℕ) (x : BitVec 48) :
    ((xsubiNext^[n] x).toNat : ℤ) ≡ (Congruential.step 0x5DEECE66D 0xB)^[n] x.toNat [ZMOD 2 ^ 48] := by
  induction n with
  | zero => rfl
  | succ n ih =>
    have hnext : ((xsubiNext (xsubiNext^[n] x)).toNat : ℤ) ≡
        0x5DEECE66D * (xsubiNext^[n] x).toNat + 0xB [ZMOD 2 ^ 48] := by
      rw [xsubiNext, BitVec.toNat_add, BitVec.toNat_mul]
      push_cast
      exact (Int.mod_modEq _ _).trans (Int.ModEq.add_right _ (Int.mod_modEq _ _))
    rw [Function.iterate_succ_apply', Function.iterate_succ_apply']
    exact hnext.trans ((ih.mul_left _).add_right _)

/-- A state is known from its number. -/
theorem xsubi_eq_of_modEq {x y : BitVec 48} (h : (x.toNat : ℤ) ≡ y.toNat [ZMOD 2 ^ 48]) : x = y := by
  have hnat : x.toNat ≡ y.toNat [MOD 2 ^ 48] := (Int.natCast_modEq_iff (n := 2 ^ 48)).mp h
  rw [Nat.ModEq, Nat.mod_eq_of_lt x.isLt, Nat.mod_eq_of_lt y.isLt] at hnat
  exact BitVec.eq_of_toNat_eq hnat

theorem xsubiNext_iterate_injective (n : ℕ) : Function.Injective xsubiNext^[n] := by
  intro x y h
  have hstep : (Congruential.step 0x5DEECE66D 0xB)^[n] x.toNat ≡
      (Congruential.step 0x5DEECE66D 0xB)^[n] y.toNat [ZMOD 2 ^ 48] :=
    (xsubiNext_toNat n x).symm.trans (h ▸ xsubiNext_toNat n y)
  exact xsubi_eq_of_modEq (Congruential.modEq_of_iterate rfl hstep)

/-- Two places of a stream are the same only if they are `2 ^ 48` steps apart. -/
theorem xsubi_period {m n : ℕ} {x : BitVec 48} (h : xsubiNext^[m] x = xsubiNext^[n] x) : m ≡ n [MOD 2 ^ 48] :=
  Congruential.iterate_modEq_iterate rfl rfl ((xsubiNext_toNat m x).symm.trans (h ▸ xsubiNext_toNat n x))

/-! ### What an id says -/

/-- States that give the same word differ by less than `2 ^ 16`. -/
theorem sub_lt_of_high_eq {x y : BitVec 48} (h : xsubiHigh x = xsubiHigh y) : |(x.toNat : ℤ) - y.toNat| < 2 ^ 16 := by
  have hx := x.isLt
  have hy := y.isLt
  have hword : (x.extractLsb' 16 32).toNat = (y.extractLsb' 16 32).toNat := by
    rw [show x.extractLsb' 16 32 = y.extractLsb' 16 32 from congrArg UInt32.toBitVec h]
  rw [BitVec.extractLsb'_toNat, BitVec.extractLsb'_toNat, Nat.shiftRight_eq_div_pow, Nat.shiftRight_eq_div_pow,
    Nat.mod_eq_of_lt (by omega), Nat.mod_eq_of_lt (by omega)] at hword
  rw [abs_lt]
  omega

/-- Short relations of the multiplier, of its square and of its cube. -/
theorem short_one : Congruential.Short (2 ^ 48) (0x5DEECE66D ^ 1) (2 ^ 16) 4824621 (-7847617) ∧
    Congruential.Short (2 ^ 48) (0x5DEECE66D ^ 1) (2 ^ 16) 24667315 18218081 :=
  ⟨⟨by decide, by decide⟩, ⟨by decide, by decide⟩⟩

theorem short_two : Congruential.Short (2 ^ 48) (0x5DEECE66D ^ 2) (2 ^ 16) 5155272 (-15192712) ∧
    Congruential.Short (2 ^ 48) (0x5DEECE66D ^ 2) (2 ^ 16) (-17786647) (-2181761) :=
  ⟨⟨by decide, by decide⟩, ⟨by decide, by decide⟩⟩

theorem short_three : Congruential.Short (2 ^ 48) (0x5DEECE66D ^ 3) (2 ^ 16) (-4751153) 2996749 ∧
    Congruential.Short (2 ^ 48) (0x5DEECE66D ^ 3) (2 ^ 16) 28703124 41139260 :=
  ⟨⟨by decide, by decide⟩, ⟨by decide, by decide⟩⟩

/-- A state is known from two of the words of an id. -/
theorem xsubi_eq_of_words {s : ℕ} (hs : s ∈ [1, 2, 3]) {x y : BitVec 48} (h : xsubiHigh x = xsubiHigh y)
    (h' : xsubiHigh (xsubiNext^[s] x) = xsubiHigh (xsubiNext^[s] y)) : x = y := by
  have hd := sub_lt_of_high_eq h
  have he := sub_lt_of_high_eq h'
  have hdvd : (2 : ℤ) ^ 48 ∣
      (xsubiNext^[s] x).toNat - (xsubiNext^[s] y).toNat - 0x5DEECE66D ^ s * (x.toNat - y.toNat) := by
    rw [← Congruential.iterate_sub_iterate (c := 0xB)]
    exact (((xsubiNext_toNat s x).sub (xsubiNext_toNat s y)).symm).dvd
  have hzero : (x.toNat : ℤ) - y.toNat = 0 := by
    simp only [List.mem_cons, List.not_mem_nil, or_false] at hs
    rcases hs with rfl | rfl | rfl
    · exact Congruential.eq_zero_of_short short_one.1 short_one.2 (by decide) hdvd hd he
    · exact Congruential.eq_zero_of_short short_two.1 short_two.2 (by decide) hdvd hd he
    · exact Congruential.eq_zero_of_short short_three.1 short_three.2 (by decide) hdvd hd he
  exact BitVec.eq_of_toNat_eq (by omega)

/-- The two digits of a byte say what it is. -/
theorem eq_of_digits {b c : UInt8} (hhigh : high b = high c) (hlow : low b = low c) : b = c := by
  rw [← unhex_pair (fun _ => 0) b, hhigh, hlow, unhex_pair]

theorem wordBytes_injective {v w : UInt32} (h : wordBytes v = wordBytes w) : v = w := by
  simp only [wordBytes, List.cons.injEq, and_true, ← UInt8.toNat_inj, UInt32.toNat_toUInt8,
    UInt32.toNat_shiftRight] at h
  rw [← UInt32.toNat_inj]
  have hv := v.toNat_lt
  have hw := w.toNat_lt
  obtain ⟨h₀, h₁, h₂, h₃⟩ := h
  simp only [UInt32.reduceToNat, Nat.reduceMod, Nat.shiftRight_eq_div_pow, Nat.reducePow] at h₀ h₁ h₂ h₃
  omega

theorem digits_injective {b c : ℕ → UInt8} (h : digits b = digits c) {i : ℕ} (hi : i < 16) : b i = c i := by
  simp only [digits, List.cons.injEq] at h
  interval_cases i <;> exact eq_of_digits (by simp only [h]) (by simp only [h])

/-- The first word and the last one can be read from an id. -/
theorem uuidv4_words {v w : Words} (h : uuidv4 v = uuidv4 w) : v.w₀ = w.w₀ ∧ v.w₃ = w.w₃ := by
  have hdigits : digits (fun i => v.bytes.getD i 0) = digits fun i => w.bytes.getD i 0 := by
    rw [← uuidv4_bytes, ← uuidv4_bytes, h]
  have hbytes : ∀ i < 16, v.bytes.getD i 0 = w.bytes.getD i 0 := fun i hi => digits_injective hdigits hi
  have hfirst : ∀ words : Words, wordBytes words.w₀ = (List.range 4).map fun i => words.bytes.getD i 0 :=
    fun words => by
      rw [words.bytes_eq]
      rfl
  have hlast : ∀ words : Words, wordBytes words.w₃ = (List.range 4).map fun i => words.bytes.getD (12 + i) 0 :=
    fun words => by
      rw [words.bytes_eq]
      rfl
  constructor <;> refine wordBytes_injective ?_
  · rw [hfirst, hfirst]
    refine List.map_congr_left fun i hi => hbytes i ?_
    have := List.mem_range.mp hi
    omega
  · rw [hlast, hlast]
    refine List.map_congr_left fun i hi => hbytes (12 + i) ?_
    have := List.mem_range.mp hi
    omega

/-- The generator is known from the id. -/
theorem uuid_injective (order : Equiv.Perm (Fin 4)) : Function.Injective (uuidOf order) := by
  intro x y h
  obtain ⟨hfirst, hlast⟩ := uuidv4_words h
  -- the two words that are copied whole are drawn one, two or three draws apart
  have hne : (order 0 : ℕ) ≠ order 3 := fun heq => absurd (order.injective (Fin.ext heq)) (by decide)
  have hlt₀ := (order 0).isLt
  have hlt₃ := (order 3).isLt
  simp only [uuidWords] at hfirst hlast
  rcases Nat.lt_or_gt_of_ne hne with hlt | hlt
  · obtain ⟨s, hs⟩ : ∃ s, (order 3 : ℕ) + 1 = s + (order 0 + 1) := ⟨order 3 - order 0, by omega⟩
    have hmem : s ∈ [1, 2, 3] := by
      simp only [List.mem_cons, List.not_mem_nil, or_false]
      omega
    rw [hs, Function.iterate_add_apply _ s, Function.iterate_add_apply _ s] at hlast
    exact xsubiNext_iterate_injective _ (xsubi_eq_of_words hmem hfirst hlast)
  · obtain ⟨s, hs⟩ : ∃ s, (order 0 : ℕ) + 1 = s + (order 3 + 1) := ⟨order 0 - order 3, by omega⟩
    have hmem : s ∈ [1, 2, 3] := by
      simp only [List.mem_cons, List.not_mem_nil, or_false]
      omega
    rw [hs, Function.iterate_add_apply _ s, Function.iterate_add_apply _ s] at hfirst
    exact xsubiNext_iterate_injective _ (xsubi_eq_of_words hmem hlast hfirst)

/-! ### Threads -/

/-- `a0_xsubi_init` and `a0_xsubi` of a thread. -/
@[ext]
structure Generator where
  xsubiInit : Bool
  xsubi : BitVec 48

/-- `a0_uuidv4`, with what each thread would read from `/dev/urandom`. -/
def uuidCache {ι : Type} (urandom : ι → BitVec 48) : Cache ι Generator Unit where
  fresh := ⟨⟨false, 0⟩, ()⟩
  filled t := t.xsubiInit
  reset := id
  fill :=
    [.store fun i o => { o with tls := { o.tls with xsubi := urandom i } },
      .store fun _ o => { o with tls := { o.tls with xsubiInit := true } }]
  next t := { t with xsubi := xsubiNext^[4] t.xsubi }
  uses _ _ := False

variable {ι π : Type} {urandom : ι → BitVec 48} {σ : Threads ι (Shared ι π Generator Unit) (Thread ι π Generator Unit)}

/-- The generator after so many ids. -/
theorem uuidCache_next (n : ℕ) (t : Generator) :
    (uuidCache urandom).next^[n] t = { t with xsubi := xsubiNext^[4 * n] t.xsubi } := by
  induction n with
  | zero => rfl
  | succ n ih =>
    rw [Function.iterate_succ_apply', ih, uuidCache, Nat.mul_succ, Nat.add_comm, Function.iterate_add_apply]

theorem uuidCache_steady (urandom : ι → BitVec 48) :
    Steady (uuidCache urandom) (fun t => t.xsubiInit = false) fun i => ⟨true, urandom i⟩ where
  fresh := rfl
  reset _ h := h
  fill _ _ _ := ⟨rfl, rfl⟩
  next _ h := h
  uses _ _ h := h.elim
  forks _ h := h

/-- Who is given an id, has a generator. -/
theorem xsubiInit_of_mem [DecidableEq ι] {returned : List (ι × Own Generator Unit)}
    (h : Streamed (uuidCache urandom) (fun i => ⟨true, urandom i⟩) returned) {r : ι × Own Generator Unit}
    (hr : r ∈ returned) : r.2.tls.xsubiInit = true := by
  obtain ⟨n, -, htls⟩ := h.mem hr
  rw [htls, uuidCache_next]

/-- **Ids are distinct**: as long as only threads fork that have made no id, and none has made more
than `2 ^ 46`, all ids are distinct unless the generators of two threads meet. -/
theorem uuids_distinct [DecidableEq ι] [DecidableEq π] (order : Equiv.Perm (Fin 4))
    (hσ : (runs (uuidCache urandom) fun t => t.xsubiInit = false).Reach σ)
    (hfew : ∀ i, served i σ.shared.returned ≤ 2 ^ 46) :
    (σ.shared.returned.map fun r => uuidOf order r.2.tls.xsubi).Nodup ↔
      ∀ i j, i ≠ j → ∀ m < served i σ.shared.returned, ∀ n < served j σ.shared.returned,
        xsubiNext^[4 * m] (urandom i) ≠ xsubiNext^[4 * n] (urandom j) := by
  have hstreams := ((uuidCache_steady urandom).isInvariant.reach hσ).1
  constructor
  · intro hnodup i j hij m hm n hn hmeet
    obtain ⟨r, hr, rfl, htls⟩ := hstreams.exists_mem hm
    obtain ⟨r', hr', rfl, htls'⟩ := hstreams.exists_mem hn
    rw [uuidCache_next] at htls htls'
    refine hij (congrArg Prod.fst (List.inj_on_of_nodup_map hnodup hr hr' ?_))
    rw [htls, htls']
    exact congrArg (uuidOf order) hmeet
  · intro hapart
    have hstates : (σ.shared.returned.map fun r => r.2.tls).Nodup := by
      refine hstreams.nodup fun i j m n hm hn heq => ?_
      rw [uuidCache_next, uuidCache_next] at heq
      have hxsubi : xsubiNext^[4 * m] (urandom i) = xsubiNext^[4 * n] (urandom j) := congrArg Generator.xsubi heq
      by_cases hij : i = j
      · subst hij
        have hmod := xsubi_period hxsubi
        have hfew := hfew i
        rw [Nat.ModEq, Nat.mod_eq_of_lt (by omega), Nat.mod_eq_of_lt (by omega)] at hmod
        exact ⟨rfl, by omega⟩
      · exact absurd hxsubi (hapart i j hij m hm n hn)
    have hmap : (σ.shared.returned.map fun r => uuidOf order r.2.tls.xsubi) =
        (σ.shared.returned.map fun r => r.2.tls).map fun t => uuidOf order t.xsubi := by
      rw [List.map_map]
      rfl
    rw [hmap]
    refine hstates.map_on ?_
    rintro _ ht _ ht' heq
    obtain ⟨r, hr, rfl⟩ := List.mem_map.mp ht
    obtain ⟨r', hr', rfl⟩ := List.mem_map.mp ht'
    have hinit := (xsubiInit_of_mem hstreams hr).trans (xsubiInit_of_mem hstreams hr').symm
    exact Generator.ext hinit (uuid_injective order heq)

/-- What two threads read from `/dev/urandom`. -/
def twoSeeds : Bool → BitVec 48
  | false => 0
  | true => 1

/-- Both make an id. -/
theorem uuids_distinct_two : ∃ σ : Threads Bool (Shared Bool Unit Generator Unit) (Thread Bool Unit Generator Unit),
    σ.shared.returned.length = 2 ∧ (σ.shared.returned.map fun r => uuidOf 1 r.2.tls.xsubi).Nodup := by
  have h0 : (runs (uuidCache twoSeeds) fun t => t.xsubiInit = false).Reach
      ⟨⟨fun _ : Unit => none, []⟩, fun _ => ⟨(), (uuidCache twoSeeds).fresh, .unborn⟩⟩ := .init ⟨rfl, fun _ => rfl⟩
  have h1 := Threads.reach_act h0 false (.launched () rfl rfl)
  have h2 := Threads.reach_act h1 false (.misses rfl rfl)
  have h3 := Threads.reach_act h2 false (.stores _ _ rfl)
  have h4 := Threads.reach_act h3 false (.stores _ _ rfl)
  have h5 := Threads.reach_act h4 false (.returns rfl)
  have h6 := Threads.reach_act h5 true (.spawned false rfl rfl)
  have h7 := Threads.reach_act h6 true (.misses rfl rfl)
  have h8 := Threads.reach_act h7 true (.stores _ _ rfl)
  have h9 := Threads.reach_act h8 true (.stores _ _ rfl)
  have h10 := Threads.reach_act h9 true (.returns rfl)
  have hserved : ∀ i : Bool, [true, false].count i = 1 := by decide
  refine ⟨_, rfl, (uuids_distinct 1 h10 fun i => (hserved i).le.trans (by decide)).mpr fun i j hij m hm n hn => ?_⟩
  obtain rfl : m = 0 := Nat.lt_one_iff.mp ((hserved i).symm ▸ hm)
  obtain rfl : n = 0 := Nat.lt_one_iff.mp ((hserved j).symm ▸ hn)
  revert i j
  decide

/-! ### Forks -/

end AlephZero
