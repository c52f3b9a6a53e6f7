import AlephZero.Map.Exact

/-!
# Maps whose keys are told apart

A comparison that does not tell all keys apart may still tell those apart that a map has.
The functions of the map only ask whether a comparison is zero: on these keys, they do the
same with any other comparison that is zero for the same pairs.

## What is proved

* `find_withCmp`, `putDepth_agrees`, `delBucket_withCmp` — a function of the map does the same
  with the other comparison.
* `set_represents` — what is left when a value is overwritten through the pointer that
  `a0_map_get` gives.
-/

namespace AlephZero

open Function RobinHood

namespace Map

variable {K V : Type} {cmp cmp' : K → K → Except Err ℤ} {S : Set K} {map newMap : Map K V} {key : K} {idx off fuel : ℕ}

/-- The comparisons are zero for the same pairs of these keys. -/
def AgreeOn (cmp cmp' : K → K → Except Err ℤ) (S : Set K) : Prop :=
  ∀ a ∈ S, ∀ b ∈ S, ∃ c c', cmp a b = .ok c ∧ cmp' a b = .ok c' ∧ (c = 0 ↔ c' = 0)

/-- The map with another comparison. -/
def withCmp (map : Map K V) (cmp : K → K → Except Err ℤ) : Map K V := { map with keyCmp := cmp }

/-- The map has keys of this set, and finds its buckets. -/
structure Tame (S : Set K) (cmp : K → K → Except Err ℤ) (map : Map K V) : Prop where
  keyCmp : map.keyCmp = cmp
  mask : map.hash2idx = map.cap - 1
  keys : ∀ i < map.cap, (map.data i).off ≠ 0 → (map.data i).key ∈ S

namespace Tame

theorem and_mask_lt (h : Tame S cmp map) (hcap : 0 < map.cap) (n : ℕ) : n &&& map.hash2idx < map.cap := by
  have hle : n &&& map.hash2idx ≤ map.hash2idx := Nat.and_le_right
  have hmask := h.mask
  omega

/-- A bucket may be overwritten with such a key. -/
theorem update (h : Tame S cmp map) {b : Slot K V} (hb : b.key ∈ S) (i : ℕ) :
    Tame S cmp { map with data := Function.update map.data i b } where
  keyCmp := h.keyCmp
  mask := h.mask
  keys j hj := by
    simp only
    by_cases hji : j = i
    · rw [hji, update_self]
      exact fun _ => hb
    · rw [update_of_ne hji]
      exact h.keys j hj

end Tame

/-! ### Searching -/

theorem findLoop_withCmp (ha : AgreeOn cmp cmp' S) (h : Tame S cmp map) (hkey : key ∈ S) (hidx : idx < map.cap)
    (hoff : 0 < off) : (map.withCmp cmp').findLoop key fuel idx off = map.findLoop key fuel idx off := by
  induction fuel generalizing idx off with
  | zero => rfl
  | succ fuel ih =>
    rw [findLoop, findLoop]
    by_cases hlt : off ≤ (map.data idx).off
    · obtain ⟨c, c', hc, hc', hzero⟩ := ha key hkey _ (h.keys idx hidx (by omega))
      rw [← h.keyCmp] at hc
      rw [if_pos hlt, if_pos (show off ≤ ((map.withCmp cmp').data idx).off from hlt), hc]
      simp only [withCmp, hc']
      by_cases hc0 : c = 0
      · rw [if_pos hc0, if_pos (hzero.mp hc0)]
      · rw [if_neg hc0, if_neg (mt hzero.mpr hc0)]
        exact ih (h.and_mask_lt (by omega) _) (Nat.succ_pos off)
    · rw [if_neg hlt, if_neg (show ¬ off ≤ ((map.withCmp cmp').data idx).off from hlt)]

/-- `a0_map_find` -/
theorem find_withCmp (ha : AgreeOn cmp cmp' S) (h : Tame S cmp map) (hcap : map.size ≠ 0 → 0 < map.cap)
    (hkey : key ∈ S) : (map.withCmp cmp').find key = map.find key := by
  rw [find, find]
  by_cases hsize : map.size = 0
  · rw [if_pos hsize, if_pos (show (map.withCmp cmp').size = 0 from hsize)]
  · rw [if_neg hsize, if_neg (show (map.withCmp cmp').size ≠ 0 from hsize)]
    simp only [withCmp]
    cases hhash : map.keyHash key with
    | error e => rfl
    | ok hash => exact findLoop_withCmp ha h hkey (h.and_mask_lt (hcap hsize) _) Nat.one_pos

/-! ### Insertion -/

/-- A result, and the same one with the other comparison; the map has at least `n` buckets. -/
def Agrees (S : Set K) (cmp cmp' : K → K → Except Err ℤ) (n : ℕ) (r r' : Option (Except Err Unit × Map K V)) : Prop :=
  r' = r.map (Prod.map id fun map => map.withCmp cmp') ∧ ∀ res map, r = some (res, map) → Tame S cmp map ∧ n ≤ map.cap

theorem agrees_some (h : Tame S cmp map) (res : Except Err Unit) :
    Agrees S cmp cmp' map.cap (some (res, map)) (some (res, map.withCmp cmp')) := by
  refine ⟨rfl, fun res' map' heq => ?_⟩
  cases heq
  exact ⟨h, le_rfl⟩

theorem putLoop_agrees (ha : AgreeOn cmp cmp' S) (h : Tame S cmp map) {new : Slot K V} (hnew : new.key ∈ S)
    (hidx : idx < map.cap) :
    Agrees S cmp cmp' map.cap (putLoop fuel map new idx) (putLoop fuel (map.withCmp cmp') new idx) := by
  induction fuel generalizing map new idx with
  | zero => exact ⟨rfl, fun res map heq => by cases heq⟩
  | succ fuel ih =>
    have hnext := h.and_mask_lt (Nat.zero_lt_of_lt hidx) (idx + 1)
    simp only [putLoop, withCmp]
    by_cases hoff : (map.data idx).off = 0
    · simp only [hoff, if_true]
      have htame := h.update hnew idx
      have hadded : Tame S cmp { map with data := Function.update map.data idx new, size := map.size + 1 } :=
        ⟨htame.keyCmp, htame.mask, htame.keys⟩
      exact agrees_some hadded (.ok ())
    · simp only [hoff, if_false]
      have hiter := h.keys idx hidx hoff
      obtain ⟨c, c', hc, hc', hzero⟩ := ha new.key hnew _ hiter
      rw [← h.keyCmp] at hc
      simp only [hc, hc']
      by_cases hc0 : c = 0
      · rw [if_pos hc0, if_pos (hzero.mp hc0)]
        exact agrees_some (h.update (b := { map.data idx with val := new.val }) hiter idx) (.ok ())
      · rw [if_neg hc0, if_neg (mt hzero.mpr hc0)]
        by_cases hlt : (map.data idx).off < new.off
        · simp only [hlt, if_true]
          have hcarried : ({ map.data idx with off := (map.data idx).off + 1 } : Slot K V).key ∈ S := hiter
          exact ih (h.update hnew idx) hcarried hnext
        · simp only [hlt, if_false]
          have hcarried : ({ new with off := new.off + 1 } : Slot K V).key ∈ S := hnew
          exact ih h hcarried hnext

theorem insert_agrees (ha : AgreeOn cmp cmp' S) (h : Tame S cmp map) (hkey : key ∈ S) (hcap : 0 < map.cap) (val : V) :
    Agrees S cmp cmp' map.cap (map.insert key val) ((map.withCmp cmp').insert key val) := by
  simp only [insert, withCmp]
  cases hhash : map.keyHash key with
  | error e => exact agrees_some h (.error e)
  | ok hash => exact putLoop_agrees ha h hkey (h.and_mask_lt hcap _)

/-! ### Growth -/

theorem iteratorNext_withCmp (map : Map K V) (idx : ℕ) :
    (map.withCmp cmp').iteratorNext idx = map.iteratorNext idx := by
  have hloop : ∀ fuel idx, (map.withCmp cmp').iteratorLoop fuel idx = map.iteratorLoop fuel idx := by
    intro fuel
    induction fuel with
    | zero => exact fun _ => rfl
    | succ fuel ih =>
      intro idx
      rw [iteratorLoop, iteratorLoop, ih]
      rfl
  simp only [iteratorNext]
  rw [hloop]
  rfl

/-- What the iterator gives is in a bucket. -/
theorem Tame.iteratorNext_mem (h : Tame S cmp map) {p : K × V} {idx' : ℕ}
    (hnext : map.iteratorNext idx = some (.ok p, idx')) : p.1 ∈ S := by
  rcases iteratorNext_spec map idx with ⟨j, hj, -, hrun, hent⟩ | ⟨⟨_, hrun⟩, -⟩
  · rw [hrun] at hnext
    cases hnext
    have hmem : ((map.data j).key, (map.data j).val) ∈ entriesFrom map.cap map.data idx := by
      rw [hent]
      exact Multiset.mem_cons_self _ _
    rw [entriesFrom, Multiset.mem_sum] at hmem
    obtain ⟨i, hi, hslot⟩ := hmem
    have hoff : (map.data i).off ≠ 0 := by
      intro hoff
      rw [Slot.entry_of_empty hoff] at hslot
      exact absurd hslot (Multiset.notMem_zero _)
    rw [Slot.entry_of_ne hoff, Multiset.mem_singleton, Prod.mk.injEq] at hslot
    rw [hslot.1]
    exact h.keys i (Finset.mem_Ico.mp hi).2 hoff
  · rw [hrun] at hnext
    cases hnext

section Growth

variable [Inhabited K] [Inhabited V]

theorem Tame.fresh (h : Tame S cmp map) : Tame S cmp map.fresh where
  keyCmp := h.keyCmp
  mask := rfl
  keys _ _ hoff := absurd rfl hoff

omit [Inhabited K] [Inhabited V] in
/-- The entries are put into the two new maps one after the other. -/
theorem growLoop_agrees {put : Map K V → K → V → Option (Except Err Unit × Map K V)} (fuel idx : ℕ)
    (hput : ∀ newMap key val, Tame S cmp newMap → key ∈ S →
      Agrees S cmp cmp' newMap.cap (put newMap key val) (put (newMap.withCmp cmp') key val))
    (h : Tame S cmp map) (hnew : Tame S cmp newMap) :
    growLoop put (map.withCmp cmp') fuel idx (newMap.withCmp cmp') =
        (growLoop put map fuel idx newMap).map (Except.map fun map => map.withCmp cmp') ∧
      ∀ map', growLoop put map fuel idx newMap = some (.ok map') → Tame S cmp map' ∧ newMap.cap ≤ map'.cap := by
  induction fuel generalizing idx newMap with
  | zero => exact ⟨rfl, fun map' heq => by cases heq⟩
  | succ fuel ih =>
    rw [growLoop, growLoop, iteratorNext_withCmp]
    rcases hnext : map.iteratorNext idx with _ | ⟨⟨e⟩ | ⟨key, val⟩, idx'⟩
    · exact ⟨rfl, fun map' heq => by cases heq⟩
    · refine ⟨rfl, fun map' heq => ?_⟩
      cases heq
      exact ⟨hnew, le_rfl⟩
    · obtain ⟨heq, htame⟩ := hput newMap key val hnew (h.iteratorNext_mem hnext)
      simp only
      rw [heq]
      rcases hres : put newMap key val with _ | ⟨⟨e⟩ | ⟨⟩, newMap'⟩
      · exact ⟨rfl, fun map' heq => by cases heq⟩
      · exact ⟨rfl, fun map' heq => by cases heq⟩
      · obtain ⟨hnew', hcap⟩ := htame _ _ hres
        obtain ⟨heq', htame'⟩ := ih idx' hnew'
        refine ⟨heq', fun map' hmap' => ?_⟩
        obtain ⟨hmap, hle⟩ := htame' map' hmap'
        exact ⟨hmap, hcap.trans hle⟩

theorem putDepth_agrees (ha : AgreeOn cmp cmp' S) (depth : ℕ) (h : Tame S cmp map) (hkey : key ∈ S) (val : V) :
    Agrees S cmp cmp' map.cap (putDepth depth map key val) (putDepth depth (map.withCmp cmp') key val) := by
  induction depth generalizing map key val with
  | zero => exact ⟨rfl, fun res map heq => by cases heq⟩
  | succ depth ih =>
    rw [putDepth, putDepth]
    by_cases hload : map.cap ≤ map.size * 2
    · obtain ⟨heq, htame⟩ := growLoop_agrees map.fuel 0 (fun newMap key val hnew hkey => ih hnew hkey val) h h.fresh
      rw [if_pos hload, if_pos (show (map.withCmp cmp').cap ≤ (map.withCmp cmp').size * 2 from hload)]
      have hgrow : grow (putDepth depth) (map.withCmp cmp') =
          (grow (putDepth depth) map).map (Except.map fun map => map.withCmp cmp') := heq
      rw [hgrow]
      rcases hres : grow (putDepth depth) map with _ | ⟨e⟩ | ⟨map'⟩
      · exact ⟨rfl, fun res map heq => by cases heq⟩
      · exact agrees_some h (.error e)
      · obtain ⟨hmap', hle⟩ := htame map' hres
        have hcap : map.cap < map'.cap := by
          rw [fresh_cap, nextCap] at hle
          split_ifs at hle <;> omega
        obtain ⟨heq', htame'⟩ := insert_agrees ha hmap' hkey (Nat.zero_lt_of_lt hcap) val
        refine ⟨heq', fun res map₂ hmap₂ => ?_⟩
        obtain ⟨hmap, hle'⟩ := htame' res map₂ hmap₂
        exact ⟨hmap, hcap.le.trans hle'⟩
    · rw [if_neg hload, if_neg (show ¬ (map.withCmp cmp').cap ≤ (map.withCmp cmp').size * 2 from hload)]
      exact insert_agrees ha h hkey (by omega) val

end Growth

/-! ### Deletion -/

/-- `a0_map_del_bucket` compares nothing. -/
theorem delBucket_withCmp (map : Map K V) (bkt : ℕ) :
    (map.withCmp cmp').delBucket bkt = (map.delBucket bkt).map fun map => map.withCmp cmp' := by
  have hloop : ∀ fuel (map : Map K V) bkt, delBucketLoop fuel (map.withCmp cmp') bkt =
      (delBucketLoop fuel map bkt).map fun map => map.withCmp cmp' := by
    intro fuel
    induction fuel with
    | zero => exact fun _ _ => rfl
    | succ fuel ih =>
      intro map bkt
      simp only [delBucketLoop]
      by_cases hlt : 1 < (map.data ((bkt + 1) &&& map.hash2idx)).off
      · have hlt' : 1 < ((map.withCmp cmp').data ((bkt + 1) &&& (map.withCmp cmp').hash2idx)).off := hlt
        rw [if_pos hlt, ← ih, if_pos hlt']
        rfl
      · have hlt' : ¬ 1 < ((map.withCmp cmp').data ((bkt + 1) &&& (map.withCmp cmp').hash2idx)).off := hlt
        rw [if_neg hlt, if_neg hlt']
        rfl
  exact hloop map.fuel { map with data := update map.data bkt { map.data bkt with off := 0 }, size := map.size - 1 } bkt

theorem keyCmp_of_delBucket {map' : Map K V} {bkt : ℕ} (h : map.delBucket bkt = some map') :
    map'.keyCmp = map.keyCmp := by
  have heq : (map.withCmp map.keyCmp).delBucket bkt = _ := delBucket_withCmp map bkt
  rw [show map.withCmp map.keyCmp = map from rfl, h, Option.map_some, Option.some.injEq] at heq
  rw [heq]
  rfl

/-! ### Overwriting -/

section Set

variable {hash : K → Except Err ℕ} {e : K → Option V} [DecidableEq K]

/-- The value of a bucket, overwritten. -/
def setVal (map : Map K V) (bkt : ℕ) (val : V) : Map K V :=
  { map with data := Function.update map.data bkt { map.data bkt with val := val } }

/-- What is left when a value is overwritten through the pointer that `a0_map_get` gives. -/
theorem set_represents (hl : Exact hash cmp) (h : map.Represents hash cmp e) {bkt : ℕ}
    (hfind : map.find key = some (.ok bkt)) (val : V) :
    (map.setVal bkt val).Represents hash cmp (Function.update e key (some val)) := by
  let _ : Setoid K := ⊥
  obtain ⟨F, hF, hlook⟩ := h
  rcases find_spec hl.lawful hF key with ⟨i, hi, hrun, ho, hk, -⟩ | ⟨hrun, -⟩
  · rw [hfind, Option.some.injEq, Except.ok.injEq] at hrun
    subst hrun
    refine ⟨_, hF.overwrite hi ho rfl rfl, fun k => ?_⟩
    rw [← Quotient.sound (s := ⊥) hk, update_apply]
    split_ifs with hkey
    · rw [hkey]
      exact Finmap.lookup_insert F
    · rw [← hlook k]
      exact Finmap.lookup_insert_of_ne _ (mt mk_inj.mp hkey)
  · rw [hfind] at hrun
    cases hrun

end Set

end Map

end AlephZero
