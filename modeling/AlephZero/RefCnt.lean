import AlephZero.Cmp.Orders
import AlephZero.Map.Agree

/-!
# Reference counts

`ref_cnt.c`: the counts are the values of a map whose keys are addresses. They are changed
through the pointer that `a0_map_get` gives, and a count that gets to zero is deleted. The
mutex orders the calls.

## What is proved

* `Reads.has`, `Reads.find`, `Reads.put`, `Reads.set`, `Reads.del` — as long as the low 32
  bits of its keys and of the key in hand are all different, the map is a function.
* `call_spec` — a call then returns and leaves what it should.
* **`ref_cnt_exact`** — in a run in which they always are, each call returns the number of
  increments less the number of decrements so far.
-/

namespace AlephZero

open Function Map

namespace RefCnt

/-- The map of `a0_counters_t`. -/
abbrev Counters := Map UInt64 UInt64

/-- `_global_counters_init` -/
def init : Counters := Map.init hashPtr cmpPtr

/-- `a0_ref_cnt_inc_locked`, to where the count is in the map. -/
def ensure (map : Counters) (key : UInt64) : Option (Except Err Unit × Counters) := do
  if ← map.has key then
    return (.ok (), map)
  else
    map.put key 0

/-- `a0_ref_cnt_inc_locked`, with the count of `out_cnt`. -/
def incLocked (map : Counters) (key : UInt64) : Option (Except Err UInt64 × Counters) := do
  let (err, map) ← ensure map key
  match err with
  | .error e => return (.error e, map)
  | .ok () =>
    -- `a0_map_get` gives a pointer to the value of the bucket
    match ← map.find key with
    | .error e => return (.error e, map)
    | .ok bkt =>
      let cnt := (map.data bkt).val + 1
      return (.ok cnt, map.setVal bkt cnt)

/-- `a0_ref_cnt_dec_locked` -/
def decLocked (map : Counters) (key : UInt64) : Option (Except Err UInt64 × Counters) := do
  if !(← map.has key) then
    return (.error .notFound, map)
  match ← map.find key with
  | .error e => return (.error e, map)
  | .ok bkt =>
    let cnt := (map.data bkt).val - 1
    let map := map.setVal bkt cnt
    if cnt = 0 then
      let (err, map) ← map.del key
      return (err.map fun _ => cnt, map)
    return (.ok cnt, map)

/-- `a0_ref_cnt_get_locked` -/
def getLocked (map : Counters) (key : UInt64) : Option (Except Err UInt64) := do
  if ← map.has key then
    map.get key
  else
    return .ok 0

/-- A call. -/
inductive Call where
  | inc (key : UInt64)
  | dec (key : UInt64)
  | get (key : UInt64)
  deriving DecidableEq

/-- The key of a call. -/
def Call.key : Call → UInt64
  | inc key | dec key | get key => key

/-- `a0_ref_cnt_inc`, `a0_ref_cnt_dec` and `a0_ref_cnt_get`. -/
def call (map : Counters) : Call → Option (Except Err UInt64 × Counters)
  | .inc key => incLocked map key
  | .dec key => decLocked map key
  | .get key => (getLocked map key).map fun r => (r, map)

/-- Calls one after the other, with what they return. -/
def run (map : Counters) : List Call → Option (List (Except Err UInt64) × Counters)
  | [] => some ([], map)
  | c :: calls => do
    let (r, map) ← call map c
    let (rs, map) ← run map calls
    return (r :: rs, map)

/-! ### Counts -/

/-- The count of each key. -/
abbrev Counts := UInt64 → ℕ

/-- What a call should return. -/
def Counts.reply (n : Counts) : Call → Except Err ℕ
  | .inc key => .ok (n key + 1)
  | .dec key => if n key = 0 then .error .notFound else .ok (n key - 1)
  | .get key => .ok (n key)

/-- What a call should leave. -/
def Counts.after (n : Counts) : Call → Counts
  | .inc key => update n key (n key + 1)
  | .dec key => update n key (n key - 1)
  | .get _ => n

/-- The part of an address that the comparison sees. -/
def low (key : UInt64) : ℤ := (key.toNat : ℤ) % 2 ^ 32

/-- No other key with the same low 32 bits has a count, and the count of the key has room. -/
structure Counts.Safe (n : Counts) (c : Call) : Prop where
  apart : ∀ k, k ≠ c.key → low k = low c.key → n k = 0
  room : ∀ key, c = .inc key → n key + 1 < 2 ^ 64

/-- It is so at each of the calls. -/
def SafeRun (n : Counts) : List Call → Prop
  | [] => True
  | c :: calls => n.Safe c ∧ SafeRun (n.after c) calls

/-! ### A map of addresses -/

/-- The comparison that tells all addresses apart. -/
def exactCmp (a b : UInt64) : Except Err ℤ := .ok (if a = b then 0 else 1)

theorem exact_exactCmp : Exact hashPtr exactCmp where
  hash _ := ⟨_, rfl⟩
  cmp _ _ := ⟨_, rfl⟩
  eq a b := by
    rw [exactCmp, Except.ok.injEq]
    split_ifs with h <;> simp [h]

variable {map : Counters} {e : UInt64 → Option UInt64} {key : UInt64} {n : Counts}

/-- The map gives these counts, if its comparison is taken to tell all addresses apart. -/
structure Reads (map : Counters) (e : UInt64 → Option UInt64) : Prop where
  keyCmp : map.keyCmp = cmpPtr
  represents : (map.withCmp exactCmp).Represents hashPtr exactCmp e

/-- The keys of the map, and this one. -/
def keysWith (e : UInt64 → Option UInt64) (key : UInt64) : Set UInt64 := {k | k = key ∨ e k ≠ none}

/-- The low bits tell the keys of the map and this one apart. -/
def Told (e : UInt64 → Option UInt64) (key : UInt64) : Prop := Set.InjOn low (keysWith e key)

theorem keysWith_update (v : UInt64) : keysWith (update e key (some v)) key = keysWith e key := by
  ext k
  by_cases hk : k = key <;> simp [keysWith, hk]

theorem Told.update (h : Told e key) (v : UInt64) : Told (update e key (some v)) key := by
  rwa [Told, keysWith_update]

theorem Told.agreeOn (h : Told e key) : AgreeOn cmpPtr exactCmp (keysWith e key) := by
  intro a ha b hb
  refine ⟨_, _, cmpPtr_eq a b, rfl, ?_⟩
  have hlow : low a = low b ↔ ((a.toNat : ℤ) - b.toNat).bmod (2 ^ 32) = 0 :=
    Comparison.emod_eq_iff_bmod_sub (h := 2 ^ 31)
  rw [← hlow, h.eq_iff ha hb]
  split_ifs with hab <;> simp [hab]

namespace Reads

theorem tame (h : Reads map e) (key : UInt64) : Tame (keysWith e key) cmpPtr map := by
  let _ : Setoid UInt64 := ⊥
  obtain ⟨F, hF, hlook⟩ := h.represents
  refine ⟨h.keyCmp, hF.mask, fun i hi hoff => .inr ?_⟩
  have hslot := hF.lookup hi hoff
  rw [hlook] at hslot
  exact fun hnone => Option.some_ne_none _ (hslot.symm.trans hnone)

/-- `a0_map_find` -/
theorem find (h : Reads map e) (ht : Told e key) : map.find key = (map.withCmp exactCmp).find key := by
  let _ : Setoid UInt64 := ⊥
  obtain ⟨F, hF, -⟩ := h.represents
  exact (find_withCmp ht.agreeOn (h.tame key) hF.cap_pos (.inl rfl)).symm

/-- `a0_map_has` -/
theorem has (h : Reads map e) (ht : Told e key) : map.has key = some (e key).isSome := by
  rw [← has_represents exact_exactCmp h.represents, Map.has, Map.has, h.find ht]

/-- `a0_map_put` -/
theorem put (h : Reads map e) (ht : Told e key) (val : UInt64) :
    ∃ map', map.put key val = some (.ok (), map') ∧ Reads map' (update e key (some val)) := by
  obtain ⟨map₁, hput, hrep⟩ := put_represents exact_exactCmp h.represents key val
  have hagree := putDepth_agrees ht.agreeOn 2 (h.tame key) (.inl rfl) val
  obtain ⟨heq, htame⟩ := hagree
  rw [show putDepth 2 (map.withCmp exactCmp) key val = some (.ok (), map₁) from hput] at heq
  obtain ⟨⟨res, map'⟩, hrun, hres⟩ := Option.map_eq_some_iff.mp heq.symm
  cases hres
  exact ⟨map', hrun, (htame _ _ hrun).1.keyCmp, hrep⟩

/-- A count that is there, through the pointer to it. -/
theorem set (h : Reads map e) (ht : Told e key) {v : UInt64} (hv : e key = some v) :
    ∃ bkt, map.find key = some (.ok bkt) ∧ (map.data bkt).val = v ∧
      ∀ val, Reads (map.setVal bkt val) (update e key (some val)) := by
  rcases find_represents exact_exactCmp h.represents key with ⟨bkt, -, hfind, hval, -, -⟩ | ⟨-, hnone⟩
  · refine ⟨bkt, (h.find ht).trans hfind, ?_, fun val => ?_⟩
    · rw [hv, Option.some.injEq] at hval
      exact hval.symm
    · exact ⟨h.keyCmp, set_represents exact_exactCmp h.represents hfind val⟩
  · rw [hv] at hnone
    cases hnone

/-- `a0_map_del` -/
theorem del (h : Reads map e) (ht : Told e key) {v : UInt64} (hv : e key = some v) :
    ∃ map', map.del key = some (.ok (), map') ∧ Reads map' (update e key none) := by
  rcases find_represents exact_exactCmp h.represents key with ⟨bkt, map₁, hfind, -, hdel, hrep⟩ | ⟨-, hnone⟩
  · rw [delBucket_withCmp] at hdel
    obtain ⟨map', hrun, rfl⟩ := Option.map_eq_some_iff.mp hdel
    refine ⟨map', ?_, (keyCmp_of_delBucket hrun).trans h.keyCmp, hrep⟩
    rw [Map.del, (h.find ht).trans hfind]
    simp only [hrun]
    rfl
  · rw [hv] at hnone
    cases hnone

end Reads

/-! ### Calls -/

/-- What the map has of these counts. -/
def stored (n : Counts) (key : UInt64) : Option UInt64 := if n key = 0 then none else some (UInt64.ofNat (n key))

/-- The map has these counts. -/
structure Counting (map : Counters) (n : Counts) : Prop where
  reads : Reads map (stored n)
  apart : ∀ a b, n a ≠ 0 → n b ≠ 0 → low a = low b → a = b
  lt : ∀ key, n key < 2 ^ 64

theorem stored_of_zero (h : n key = 0) : stored n key = none := if_pos h

theorem stored_of_ne (h : n key ≠ 0) : stored n key = some (UInt64.ofNat (n key)) := if_neg h

theorem stored_ne_none_iff : stored n key ≠ none ↔ n key ≠ 0 := by
  rw [stored]
  split_ifs with h <;> simp [h]

/-- A count that is not zero. -/
theorem stored_update {m : ℕ} (hm : m ≠ 0) :
    update (stored n) key (some (UInt64.ofNat m)) = stored (update n key m) := by
  funext k
  by_cases hk : k = key
  · rw [hk, update_self, stored, update_self, if_neg hm]
  · rw [update_of_ne hk, stored, stored, update_of_ne hk]

theorem stored_update_zero : update (stored n) key none = stored (update n key 0) := by
  funext k
  by_cases hk : k = key
  · rw [hk, update_self, stored, update_self, if_pos rfl]
  · rw [update_of_ne hk, stored, stored, update_of_ne hk]

theorem ofNat_toNat {m : ℕ} (h : m < 2 ^ 64) : (UInt64.ofNat m).toNat = m := UInt64.toNat_ofNat_of_lt' h

theorem init_counting : Counting init fun _ => 0 where
  reads := ⟨rfl, init_represents⟩
  apart _ _ h := absurd rfl h
  lt _ := by norm_num

namespace Counting

/-- The key in hand is told apart, too. -/
theorem told (h : Counting map n) (happ : ∀ k, k ≠ key → low k = low key → n k = 0) : Told (stored n) key := by
  rintro a (rfl | ha) b (rfl | hb) hlow
  · rfl
  · by_contra hne
    exact stored_ne_none_iff.mp hb (happ b (Ne.symm hne) hlow.symm)
  · by_contra hne
    exact stored_ne_none_iff.mp ha (happ a hne hlow)
  · exact h.apart a b (stored_ne_none_iff.mp ha) (stored_ne_none_iff.mp hb) hlow

/-- The count of the key in hand changes. -/
theorem update (h : Counting map n) (happ : ∀ k, k ≠ key → low k = low key → n k = 0) {m : ℕ} (hm : m < 2 ^ 64)
    {map' : Counters} (hreads : Reads map' (stored (Function.update n key m))) :
    Counting map' (Function.update n key m) where
  reads := hreads
  apart a b ha hb hlow := by
    by_cases hak : a = key
    · by_contra hne
      have hbk : b ≠ key := fun hbk => hne (hak.trans hbk.symm)
      rw [update_of_ne hbk] at hb
      exact hb (happ b hbk (hak ▸ hlow.symm))
    · rw [update_of_ne hak] at ha
      by_cases hbk : b = key
      · exact absurd (happ a hak (hbk ▸ hlow)) ha
      · rw [update_of_ne hbk] at hb
        exact h.apart a b ha hb hlow
  lt k := by
    by_cases hk : k = key
    · rwa [hk, update_self]
    · rw [update_of_ne hk]
      exact h.lt k

/-- The count is there, or it is put there. -/
theorem ensure (h : Counting map n) (ht : Told (stored n) key) :
    ∃ map₁ v, RefCnt.ensure map key = some (.ok (), map₁) ∧ v.toNat = n key ∧
      Reads map₁ (Function.update (stored n) key (some v)) := by
  rw [RefCnt.ensure, h.reads.has ht]
  by_cases hzero : n key = 0
  · rw [stored_of_zero hzero]
    obtain ⟨map₁, hrun, hreads⟩ := h.reads.put ht 0
    exact ⟨map₁, 0, hrun, hzero.symm, hreads⟩
  · rw [stored_of_ne hzero]
    refine ⟨map, _, rfl, ofNat_toNat (h.lt key), ?_⟩
    rw [← stored_of_ne hzero, update_eq_self]
    exact h.reads

/-- `a0_ref_cnt_inc` -/
theorem inc (h : Counting map n) (happ : ∀ k, k ≠ key → low k = low key → n k = 0) (hroom : n key + 1 < 2 ^ 64) :
    ∃ map', incLocked map key = some (.ok (UInt64.ofNat (n key + 1)), map') ∧
      Counting map' (Function.update n key (n key + 1)) := by
  have ht := h.told happ
  obtain ⟨map₁, v, hrun₁, hv, hreads₁⟩ := h.ensure ht
  obtain ⟨bkt, hfind, hval, hset⟩ := hreads₁.set (ht.update v) (update_self ..)
  have hcnt : (map₁.data bkt).val + 1 = UInt64.ofNat (n key + 1) := by
    rw [hval, UInt64.ofNat_add, ← hv, UInt64.ofNat_toNat]
    rfl
  refine ⟨map₁.setVal bkt ((map₁.data bkt).val + 1), ?_, h.update happ hroom ?_⟩
  · rw [incLocked, hrun₁]
    simp only [Option.bind_eq_bind, Option.bind_some, hfind, hcnt]
    rfl
  · have hreads := hset (UInt64.ofNat (n key + 1))
    rwa [update_idem, stored_update (Nat.succ_ne_zero _), ← hcnt] at hreads

/-- `a0_ref_cnt_dec` -/
theorem dec (h : Counting map n) (happ : ∀ k, k ≠ key → low k = low key → n k = 0) (hpos : n key ≠ 0) :
    ∃ map', decLocked map key = some (.ok (UInt64.ofNat (n key - 1)), map') ∧
      Counting map' (Function.update n key (n key - 1)) := by
  have ht := h.told happ
  have hlt := h.lt key
  have hstored := stored_of_ne hpos
  have hsome : (stored n key).isSome = true := by
    rw [hstored]
    rfl
  obtain ⟨bkt, hfind, hval, hset⟩ := h.reads.set ht hstored
  have hcnt : (map.data bkt).val - 1 = UInt64.ofNat (n key - 1) := by
    rw [hval, UInt64.ofNat_sub (Nat.one_le_iff_ne_zero.mpr hpos)]
    rfl
  have hreads := hset (UInt64.ofNat (n key - 1))
  by_cases hone : n key = 1
  · -- the last one
    obtain ⟨map', hdel, hreads'⟩ := hreads.del (ht.update _) (update_self ..)
    rw [update_idem, stored_update_zero] at hreads'
    refine ⟨map', ?_, h.update happ (Nat.lt_of_le_of_lt (Nat.sub_le _ _) hlt) (by rwa [hone])⟩
    rw [hone] at hdel hcnt ⊢
    rw [decLocked, h.reads.has ht, hsome]
    simp only [Option.bind_eq_bind, Option.bind_some, Bool.not_true, Bool.false_eq_true, if_false, hfind, hcnt]
    have hzero : UInt64.ofNat (1 - 1) = 0 := rfl
    rw [if_pos hzero, hdel]
    rfl
  · have hne : n key - 1 ≠ 0 := by omega
    refine ⟨map.setVal bkt (UInt64.ofNat (n key - 1)), ?_, h.update happ (by omega) ?_⟩
    · rw [decLocked, h.reads.has ht, hsome]
      simp only [Option.bind_eq_bind, Option.bind_some, Bool.not_true, Bool.false_eq_true, if_false, hfind, hcnt]
      have hne' : UInt64.ofNat (n key - 1) ≠ 0 := by
        intro hzero
        have hnat := congrArg UInt64.toNat hzero
        rw [ofNat_toNat (by omega)] at hnat
        exact hne hnat
      rw [if_neg hne']
      rfl
    · rwa [stored_update hne] at hreads

/-- `a0_ref_cnt_get` -/
theorem get (h : Counting map n) (happ : ∀ k, k ≠ key → low k = low key → n k = 0) :
    getLocked map key = some (.ok (UInt64.ofNat (n key))) := by
  have ht := h.told happ
  rw [getLocked, h.reads.has ht]
  by_cases hzero : n key = 0
  · rw [stored_of_zero hzero, hzero]
    rfl
  · obtain ⟨bkt, hfind, hval, -⟩ := h.reads.set ht (stored_of_ne hzero)
    rw [stored_of_ne hzero]
    simp only [Option.bind_eq_bind, Option.bind_some, Option.isSome_some, if_true, Map.get, hfind, ← hval]
    rfl

end Counting

/-- **A call** returns what it should, and leaves what it should. -/
theorem call_spec (h : Counting map n) {c : Call} (hsafe : n.Safe c) :
    ∃ r map', call map c = some (r, map') ∧ r.map UInt64.toNat = n.reply c ∧ Counting map' (n.after c) := by
  have happ := hsafe.apart
  have hroom := hsafe.room
  cases c with
  | inc key =>
    simp only [Call.key] at happ
    obtain ⟨map', hrun, h'⟩ := h.inc happ (hroom key rfl)
    exact ⟨_, map', hrun, congrArg Except.ok (ofNat_toNat (hroom key rfl)), h'⟩
  | dec key =>
    simp only [Call.key] at happ
    simp only [Counts.reply, Counts.after]
    by_cases hzero : n key = 0
    · have hnone : (stored n key).isSome = false := by
        rw [stored_of_zero hzero]
        rfl
      refine ⟨.error .notFound, map, ?_, ?_, ?_⟩
      · rw [call, decLocked, h.reads.has (h.told happ), hnone]
        rfl
      · rw [if_pos hzero]
        rfl
      · rwa [hzero, Nat.zero_sub, ← hzero, update_eq_self]
    · obtain ⟨map', hrun, h'⟩ := h.dec happ hzero
      refine ⟨_, map', hrun, ?_, h'⟩
      rw [if_neg hzero]
      exact congrArg Except.ok (ofNat_toNat (Nat.lt_of_le_of_lt (Nat.sub_le _ _) (h.lt key)))
  | get key =>
    refine ⟨.ok (UInt64.ofNat (n key)), map, ?_, congrArg Except.ok (ofNat_toNat (h.lt key)), h⟩
    simp only [Call.key] at happ
    rw [call, h.get happ]
    rfl

/-! ### Runs -/

/-- The increments of a key that have succeeded, among calls and what they returned. -/
def incs (key : UInt64) (hist : List (Call × Except Err UInt64)) : ℕ :=
  hist.countP fun p => p.1 = .inc key ∧ p.2.isOk

/-- The decrements of a key that have succeeded. -/
def decs (key : UInt64) (hist : List (Call × Except Err UInt64)) : ℕ :=
  hist.countP fun p => p.1 = .dec key ∧ p.2.isOk

/-- What a call should return when its key has so many references. -/
def Answers (net : ℤ) (c : Call) (r : Except Err UInt64) : Prop :=
  match c with
  | .inc _ => ∃ cnt, r = .ok cnt ∧ (cnt.toNat : ℤ) = net + 1
  | .dec _ => net = 0 ∧ r = .error .notFound ∨ net ≠ 0 ∧ ∃ cnt, r = .ok cnt ∧ (cnt.toNat : ℤ) = net - 1
  | .get _ => ∃ cnt, r = .ok cnt ∧ (cnt.toNat : ℤ) = net

theorem exists_ok_of_map {r : Except Err UInt64} {m : ℕ} (h : r.map UInt64.toNat = .ok m) :
    ∃ cnt, r = .ok cnt ∧ cnt.toNat = m := by
  cases r with
  | error e => cases h
  | ok cnt => exact ⟨cnt, rfl, Except.ok.inj h⟩

theorem answers_of_reply {c : Call} {r : Except Err UInt64} (h : r.map UInt64.toNat = n.reply c) :
    Answers (n c.key) c r := by
  cases c with
  | inc key =>
    obtain ⟨cnt, hr, hcnt⟩ := exists_ok_of_map h
    exact ⟨cnt, hr, by rw [hcnt]; rfl⟩
  | dec key =>
    simp only [Counts.reply] at h
    split_ifs at h with hzero
    · refine .inl ⟨by exact_mod_cast hzero, ?_⟩
      cases r with
      | error e =>
        cases h
        rfl
      | ok cnt => cases h
    · obtain ⟨cnt, hr, hcnt⟩ := exists_ok_of_map h
      refine .inr ⟨by exact_mod_cast hzero, cnt, hr, ?_⟩
      simp only [Call.key]
      omega
  | get key =>
    obtain ⟨cnt, hr, hcnt⟩ := exists_ok_of_map h
    exact ⟨cnt, hr, by rw [hcnt]; rfl⟩

/-- A call changes a count by what it adds to the history. -/
theorem after_eq {c : Call} {r : Except Err UInt64} (h : r.map UInt64.toNat = n.reply c) (k : UInt64) :
    (n.after c k : ℤ) = n k + incs k [(c, r)] - decs k [(c, r)] := by
  cases c with
  | inc key =>
    obtain ⟨cnt, rfl, -⟩ := exists_ok_of_map h
    by_cases hk : k = key
    · simp [Counts.after, incs, decs, hk, Except.isOk, Except.toBool]
    · simp [Counts.after, incs, decs, hk, Ne.symm hk, Except.isOk, Except.toBool]
  | dec key =>
    simp only [Counts.reply] at h
    split_ifs at h with hzero
    · cases r with
      | ok cnt => cases h
      | error e =>
        by_cases hk : k = key
        · simp [Counts.after, incs, decs, hk, hzero, Except.isOk, Except.toBool]
        · simp [Counts.after, incs, decs, hk, Except.isOk, Except.toBool]
    · obtain ⟨cnt, rfl, -⟩ := exists_ok_of_map h
      by_cases hk : k = key
      · have hsub : ((n key - 1 : ℕ) : ℤ) = n key - 1 := by omega
        simp [Counts.after, incs, decs, hk, hsub, Except.isOk, Except.toBool]
      · simp [Counts.after, incs, decs, hk, Ne.symm hk, Except.isOk, Except.toBool]
  | get key => simp [Counts.after, incs, decs]

/-- The history counts on from the counts of the map. -/
theorem run_spec {calls : List Call} (h : Counting map n) (hsafe : SafeRun n calls) :
    ∃ rs map', run map calls = some (rs, map') ∧ ∀ hist c r rest, calls.zip rs = hist ++ (c, r) :: rest →
      Answers (n c.key + incs c.key hist - decs c.key hist) c r := by
  induction calls generalizing map n with
  | nil =>
    refine ⟨[], map, rfl, fun hist c r rest hzip => ?_⟩
    simp at hzip
  | cons call calls ih =>
    obtain ⟨hfirst, hrest⟩ := hsafe
    obtain ⟨r, map₁, hcall, hr, h₁⟩ := call_spec h hfirst
    obtain ⟨rs, map₂, hrun, hanswers⟩ := ih h₁ hrest
    refine ⟨r :: rs, map₂, by rw [run, hcall]; simp only [Option.bind_eq_bind, Option.bind_some, hrun]; rfl, ?_⟩
    intro hist c r' rest hzip
    cases hist with
    | nil =>
      obtain ⟨⟨rfl, rfl⟩, -⟩ : (call = c ∧ r = r') ∧ calls.zip rs = rest := by simpa using hzip
      simpa [incs, decs] using answers_of_reply hr
    | cons p hist =>
      obtain ⟨rfl, htail⟩ : (call, r) = p ∧ calls.zip rs = hist ++ (c, r') :: rest := by simpa using hzip
      have hnet := hanswers hist c r' rest htail
      rw [after_eq hr c.key] at hnet
      have hincs : (incs c.key ((call, r) :: hist) : ℤ) = incs c.key [(call, r)] + incs c.key hist := by
        rw [incs, incs, incs, ← List.singleton_append, List.countP_append, Nat.cast_add]
      have hdecs : (decs c.key ((call, r) :: hist) : ℤ) = decs c.key [(call, r)] + decs c.key hist := by
        rw [decs, decs, decs, ← List.singleton_append, List.countP_append, Nat.cast_add]
      have hsum : (n c.key : ℤ) + incs c.key ((call, r) :: hist) - decs c.key ((call, r) :: hist) =
          n c.key + incs c.key [(call, r)] - decs c.key [(call, r)] + incs c.key hist - decs c.key hist := by
        rw [hincs, hdecs]
        ring
      rwa [hsum]

/-- **Reference counts are exact** in every run in which no call meets another key with the
same low 32 bits that has a count: a call returns the number of increments of its key less
the number of decrements, with its own. -/
theorem ref_cnt_exact (calls : List Call) (h : SafeRun (fun _ => 0) calls) :
    ∃ rs map, run init calls = some (rs, map) ∧ ∀ hist c r rest, calls.zip rs = hist ++ (c, r) :: rest →
      Answers (incs c.key hist - decs c.key hist : ℤ) c r := by
  obtain ⟨rs, map, hrun, hanswers⟩ := run_spec init_counting h
  refine ⟨rs, map, hrun, fun hist c r rest hzip => ?_⟩
  simpa using hanswers hist c r rest hzip

/-- An address that is counted up and down. -/
theorem ref_cnt_exact_one : ∃ rs map, run init [.inc 8, .dec 8] = some (rs, map) ∧
    ∀ hist c r rest, [Call.inc 8, .dec 8].zip rs = hist ++ (c, r) :: rest →
      Answers (incs c.key hist - decs c.key hist : ℤ) c r := by
  apply ref_cnt_exact
  refine ⟨⟨fun k _ _ => rfl, fun key _ => by norm_num⟩, ⟨fun k hk _ => ?_, fun key hkey => ?_⟩, trivial⟩
  · have hk : k ≠ 8 := hk
    exact update_of_ne hk (1 : ℕ) fun _ => 0
  · cases hkey

/-- An address has the count of another one, 4 GiB away. -/
theorem not_ref_cnt_exact :
    (run init [.inc 0, .get 0x100000000]).map Prod.fst = some [.ok 1, .ok 1] ∧
      ¬ Answers (incs 0x100000000 [(.inc 0, .ok 1)] - decs 0x100000000 [(.inc 0, .ok 1)] : ℤ)
        (.get 0x100000000) (.ok 1) := by
  constructor
  · decide +kernel
  · rintro ⟨cnt, hcnt, hnet⟩
    cases hcnt
    revert hnet
    decide

end RefCnt

end AlephZero
