import AlephZero.Map.Basic
import Mathlib.Data.Finmap

/-!
# The map is a finite map

## The model

Keys are equivalent when their comparison gives zero; equivalent keys have the same
hash. `Spec.call` is what a call does to a finite map from classes of keys to values.

## What is proved

* `find_spec`, `insert_spec`, `grow_spec`, `delBucket_spec` — a function of the map
  does what the one on the finite map does.
* **`map_refines`** — so do any calls, one after the other, and an iterator then gives
  the entries of the finite map.
-/

namespace AlephZero

open Function RobinHood

namespace Map

/-! ### Maps with room -/

/-- Without a growth, this is `a0_map_put`. -/
def Roomy {K V : Type} (put : Map K V → K → V → Option (Except Err Unit × Map K V)) : Prop :=
  ∀ (map : Map K V) (key : K) (val : V), map.size * 2 < map.cap → put map key val = map.insert key val

/-- `a0_map_put` is done with one call less in depth when the map does not have to grow. -/
theorem roomy_putDepth {K V : Type} [Inhabited K] [Inhabited V] (depth : ℕ) :
    Roomy (@putDepth K V _ _ (depth + 1)) := by
  intro map key val hload
  rw [putDepth, if_neg (by omega)]

variable {K V : Type} [s : Setoid K] [DecidableEq (Quotient s)]

/-! ### Finite maps -/

/-- Finite maps from classes of keys. -/
abbrev Spec (s : Setoid K) (V : Type) := Finmap fun _ : Quotient s => V

namespace Spec

/-- What a call does to a finite map. -/
def call (F : Spec s V) : Call K V → Reply V × Spec s V
  | .put key val => (.done (.ok ()), F.insert ⟦key⟧ val)
  | .del key => if ⟦key⟧ ∈ F then (.done (.ok ()), F.erase ⟦key⟧) else (.done (.error .notFound), F)
  | .pop key =>
    match F.lookup ⟦key⟧ with
    | some val => (.val (.ok val), F.erase ⟦key⟧)
    | none => (.val (.error .notFound), F)
  | .get key =>
    match F.lookup ⟦key⟧ with
    | some val => (.val (.ok val), F)
    | none => (.val (.error .notFound), F)
  | .has key => (.contains (decide (⟦key⟧ ∈ F)), F)
  | .size => (.size F.keys.card, F)
  | .empty => (.empty (F.keys.card == 0), F)

/-- Calls one after the other. -/
def run (F : Spec s V) : List (Call K V) → List (Reply V) × Spec s V
  | [] => ([], F)
  | c :: calls => ((F.call c).1 :: (run (F.call c).2 calls).1, (run (F.call c).2 calls).2)

/-- An entry of a finite map. -/
def entry (p : K × V) : (_ : Quotient s) × V := ⟨⟦p.1⟧, p.2⟩

variable {F : Spec s V} {q : Quotient s} {v w : V}

omit [DecidableEq (Quotient s)] in
theorem card_keys : F.keys.card = F.entries.card := Multiset.card_map _ _

/-- A finite map that gives `v` is one with that entry more. -/
theorem entries_of_lookup (h : F.lookup q = some v) : F.entries = ⟨q, v⟩ ::ₘ (F.erase q).entries := by
  rw [← Finmap.entries_insert_of_notMem Finmap.notMem_erase_self]
  congr 1
  refine Finmap.ext_lookup fun x => ?_
  by_cases hx : x = q
  · rw [hx, h, Finmap.lookup_insert]
  · rw [Finmap.lookup_insert_of_ne _ hx, Finmap.lookup_erase_ne hx]

/-- To overwrite a value is to erase it first. -/
theorem insert_erase : (F.erase q).insert q w = F.insert q w := by
  refine Finmap.ext_lookup fun x => ?_
  by_cases hx : x = q
  · rw [hx, Finmap.lookup_insert, Finmap.lookup_insert]
  · rw [Finmap.lookup_insert_of_ne _ hx, Finmap.lookup_insert_of_ne _ hx, Finmap.lookup_erase_ne hx]

end Spec

/-! ### The invariant -/

/-- The callbacks do not fail, comparison gives zero on equivalent keys, and these
have the same hash. -/
structure Lawful (keyHash : K → Except Err ℕ) (keyCmp : K → K → Except Err ℤ) : Prop where
  hash : ∀ k, ∃ n, keyHash k = .ok n
  cmp : ∀ a b, ∃ c, keyCmp a b = .ok c
  equiv : ∀ a b, keyCmp a b = .ok 0 ↔ a ≈ b
  congr : ∀ a b : K, a ≈ b → keyHash a = keyHash b

/-- The hash of a key. -/
def home (keyHash : K → Except Err ℕ) (k : K) : ℕ := (keyHash k).toOption.getD 0

/-- The map holds a finite map: its table is ordered, is at most half full, and has the
entries of the finite map. -/
structure Holds (hash : K → Except Err ℕ) (cmp : K → K → Except Err ℤ) (map : Map K V)
    (F : Spec s V) : Prop where
  keyHash : map.keyHash = hash
  keyCmp : map.keyCmp = cmp
  cap : map.cap = 0 ∨ ∃ k, map.cap = 2 ^ (k + 1)
  mask : map.hash2idx = map.cap - 1
  ordered : Ordered map.cap (home hash) map.data
  entries : (entries map.cap map.data).map Spec.entry = F.entries
  size : map.size = F.keys.card
  load : map.size * 2 ≤ map.cap

variable {hash : K → Except Err ℕ} {cmp : K → K → Except Err ℤ} {map : Map K V} {F : Spec s V}
  {key : K} {val : V} {i t e fuel : ℕ}

omit [DecidableEq (Quotient s)]

theorem Lawful.home_congr (h : Lawful hash cmp) {a b : K} (hab : a ≈ b) : home hash a = home hash b := by
  rw [home, h.congr a b hab, home]

theorem Lawful.hash_eq (h : Lawful hash cmp) (k : K) : hash k = .ok (home hash k) := by
  obtain ⟨n, hn⟩ := h.hash k
  rw [home, hn]
  rfl

theorem Lawful.cmp_ne (h : Lawful hash cmp) {a b : K} {c : ℤ} (hc : cmp a b = .ok c) :
    c = 0 ↔ a ≈ b := by
  rw [← h.equiv, hc, Except.ok.injEq]

namespace Holds

/-- Masking takes an index around the table. -/
theorem and_mask (h : Holds hash cmp map F) (hcap : map.cap ≠ 0) (n : ℕ) :
    n &&& map.hash2idx = n % map.cap := by
  obtain ⟨k, hk⟩ := h.cap.resolve_left hcap
  rw [h.mask, hk, Nat.and_two_pow_sub_one_eq_mod]

theorem cap_pos (h : Holds hash cmp map F) (hsize : map.size ≠ 0) : 0 < map.cap := by
  have := h.load
  omega

theorem card_entries (h : Holds hash cmp map F) : (RobinHood.entries map.cap map.data).card = map.size := by
  rw [h.size, Spec.card_keys, ← h.entries, Multiset.card_map]

/-- There is an empty bucket ahead of any position. -/
theorem empty_ahead (h : Holds hash cmp map F) (hcap : 0 < map.cap) (i : ℕ) :
    ∃ e < map.cap, (map.data ((i + e) % map.cap)).off = 0 := by
  have hload := h.load
  obtain ⟨x, hx, h0⟩ := exists_empty (N := map.cap) (T := map.data) (by rw [h.card_entries]; omega)
  obtain ⟨e, he, hxe⟩ := exists_ahead hx i
  exact ⟨e, he, by rw [hxe, h0]⟩

variable [DecidableEq (Quotient s)]

/-- What is in a bucket, the finite map gives. -/
theorem lookup (h : Holds hash cmp map F) (hi : i < map.cap) (ho : (map.data i).off ≠ 0) :
    F.lookup ⟦(map.data i).key⟧ = some (map.data i).val := by
  rw [Finmap.lookup_eq_some_iff, ← h.entries]
  exact Multiset.mem_map_of_mem _ (slot_mem_entries hi ho)

/-- What the finite map has is in a bucket. -/
theorem exists_slot (h : Holds hash cmp map F) (hk : ⟦key⟧ ∈ F) :
    ∃ i < map.cap, (map.data i).off ≠ 0 ∧ key ≈ (map.data i).key := by
  obtain ⟨v, hv⟩ := Finmap.mem_iff.mp hk
  rw [Finmap.lookup_eq_some_iff, ← h.entries] at hv
  obtain ⟨p, hp, he⟩ := Multiset.mem_map.mp hv
  obtain ⟨i, hi, ho, rfl⟩ := mem_entries.mp hp
  simp only [Spec.entry, Sigma.mk.injEq] at he
  exact ⟨i, hi, ho, Quotient.exact he.1.symm⟩

end Holds

theorem holds_init [Inhabited K] [Inhabited V] : Holds hash cmp (init hash cmp) (∅ : Spec s V) where
  keyHash := rfl
  keyCmp := rfl
  cap := .inl rfl
  mask := rfl
  ordered := ordered_empty fun _ => rfl
  entries := rfl
  size := rfl
  load := le_rfl

/-! ### Searching -/

/-- The search is at its turn `t`, and has not met the key. -/
theorem findLoop_spec (hl : Lawful hash cmp) (h : Holds hash cmp map F) (hcap : 0 < map.cap)
    (he : (map.data ((home hash key + e) % map.cap)).off = 0) (hte : t ≤ e) (hf : e < t + fuel)
    (hmet : ∀ u < t, ¬ key ≈ (map.data ((home hash key + u) % map.cap)).key) :
    (∃ i < map.cap, map.findLoop key fuel ((home hash key + t) % map.cap) (t + 1) = some (.ok i) ∧
      (map.data i).off ≠ 0 ∧ key ≈ (map.data i).key) ∨
    map.findLoop key fuel ((home hash key + t) % map.cap) (t + 1) = some (.error .notFound) ∧
      ∀ i < map.cap, (map.data i).off ≠ 0 → ¬ key ≈ (map.data i).key := by
  induction fuel generalizing t with
  | zero => omega
  | succ fuel ih =>
    have hlt : (home hash key + t) % map.cap < map.cap := Nat.mod_lt _ hcap
    obtain ⟨c, hc⟩ := hl.cmp key (map.data ((home hash key + t) % map.cap)).key
    simp only [findLoop, h.keyCmp, hc]
    by_cases hoff : t + 1 ≤ (map.data ((home hash key + t) % map.cap)).off
    · rw [if_pos hoff]
      by_cases hc0 : c = 0
      · rw [if_pos hc0]
        exact .inl ⟨_, hlt, rfl, by omega, (hl.cmp_ne hc).mp hc0⟩
      · rw [if_neg hc0, h.and_mask hcap.ne', Nat.mod_add_mod, add_assoc]
        have hne : t ≠ e := by
          rintro rfl
          omega
        refine ih (by omega) (by omega) fun u hu => ?_
        by_cases hut : u = t
        · rw [hut]; exact fun hk => hc0 ((hl.cmp_ne hc).mpr hk)
        · exact hmet u (by omega)
    · rw [if_neg hoff]
      refine .inr ⟨rfl, fun i hi ho hk => ?_⟩
      -- the way to the bucket is behind the search
      have hhome := hl.home_congr hk
      by_cases ht : t < (map.data i).off
      · have hb := h.ordered.before hi ht
        rw [← hhome] at hb
        omega
      · have hr := h.ordered.reaches hi ho
        rw [← hhome] at hr
        refine hmet ((map.data i).off - 1) (by omega) ?_
        rwa [hr]

/-- `a0_map_find` finds the bucket of a key, or the key is not there. -/
theorem find_spec [DecidableEq (Quotient s)] (hl : Lawful hash cmp) (h : Holds hash cmp map F) (key : K) :
    (∃ i < map.cap, map.find key = some (.ok i) ∧ (map.data i).off ≠ 0 ∧ key ≈ (map.data i).key ∧
      F.lookup ⟦key⟧ = some (map.data i).val) ∨
    map.find key = some (.error .notFound) ∧ F.lookup ⟦key⟧ = none := by
  rw [find]
  by_cases hsize : map.size = 0
  · rw [if_pos hsize]
    refine .inr ⟨rfl, Finmap.lookup_eq_none.mpr fun hk => ?_⟩
    have hcard := h.size
    rw [hsize] at hcard
    exact absurd (Finmap.mem_keys.mpr hk) (by rw [Finset.card_eq_zero.mp hcard.symm]; simp)
  have hcap := h.cap_pos hsize
  obtain ⟨e, he, hempty⟩ := h.empty_ahead hcap (home hash key)
  rw [if_neg hsize, h.keyHash, hl.hash_eq key]
  simp only
  rw [h.and_mask hcap.ne']
  have hfuel : e < 0 + map.fuel := by unfold fuel; omega
  rcases findLoop_spec hl h hcap hempty (Nat.zero_le e) hfuel (by simp) with ⟨i, hi, hr, ho, hk⟩ | ⟨hr, hno⟩
  · refine .inl ⟨i, hi, hr, ho, hk, ?_⟩
    rw [Quotient.sound hk]
    exact h.lookup hi ho
  · refine .inr ⟨hr, Finmap.lookup_eq_none.mpr fun hk => ?_⟩
    obtain ⟨i, hi, ho, hk⟩ := h.exists_slot hk
    exact hno i hi ho hk

/-! ### Insertion -/

/-- The class of a key occurs once, also with the entry that is carried. -/
def Distinct (s : Setoid K) (E : Multiset (K × V)) : Prop := (E.map fun p => (⟦p.1⟧ : Quotient s)).Nodup

theorem distinct_entries {E : Multiset (K × V)} (h : E.map Spec.entry = F.entries) : Distinct s E := by
  have hn := F.nodupKeys.nodup_keys
  rwa [Multiset.keys, ← h, Multiset.map_map] at hn

/-- The entry `b` is carried to an empty bucket. -/
theorem putLoop_carry (hl : Lawful hash cmp) (h : Holds hash cmp map F) (hcap : 0 < map.cap)
    {T : Table K V} {b : Slot K V} (hb : Carrying map.cap (home hash) T b i)
    (hd : Distinct s ((b.key, b.val) ::ₘ RobinHood.entries map.cap T))
    (he : (T ((i + e) % map.cap)).off = 0) (hf : e < fuel) :
    ∃ T', putLoop fuel { map with data := T } b (i % map.cap) =
        some (.ok (), { map with data := T', size := map.size + 1 }) ∧
      Ordered map.cap (home hash) T' ∧
      RobinHood.entries map.cap T' = (b.key, b.val) ::ₘ RobinHood.entries map.cap T := by
  induction fuel generalizing T b i e with
  | zero => omega
  | succ fuel ih =>
    have hi : i % map.cap < map.cap := Nat.mod_lt _ hcap
    simp only [putLoop]
    by_cases ho : (T (i % map.cap)).off = 0
    · rw [if_pos ho]
      have hup := entries_update (T := T) (b := b) hi
      rw [Slot.entry_of_empty ho, add_zero, Slot.entry_of_ne hb.occupied] at hup
      have hpos := hb.occupied
      exact ⟨_, rfl, hb.put (by omega), by rw [hup, add_comm, Multiset.singleton_add]⟩
    rw [if_neg ho]
    have hswap := entries_swap hi ho hb.occupied
    obtain ⟨c, hc⟩ := hl.cmp b.key (T (i % map.cap)).key
    have hc0 : c ≠ 0 := by
      -- the bucket has another key
      intro hc0
      have hk := Quotient.sound ((hl.cmp_ne hc).mp hc0)
      rw [Distinct, Multiset.map_cons, Multiset.nodup_cons] at hd
      exact hd.1 (hk ▸ Multiset.mem_map_of_mem _ (slot_mem_entries hi ho))
    have he0 : e ≠ 0 := by
      rintro rfl
      exact ho he
    have hnext : i + 1 + (e - 1) = i + e := by omega
    rw [← h.keyCmp] at hc
    rw [hc]
    simp only
    rw [if_neg hc0, h.and_mask hcap.ne', Nat.mod_add_mod]
    by_cases hlt : (T (i % map.cap)).off < b.off
    · rw [if_pos hlt]
      have hne : (i + e) % map.cap ≠ i % map.cap := fun heq => ho (heq ▸ he)
      obtain ⟨T', hrun, hord, hent⟩ := ih (hb.swap hcap ho hlt) (by rwa [hswap])
        (e := e - 1) (by rwa [hnext, update_of_ne hne]) (by omega)
      exact ⟨T', hrun, hord, hent.trans hswap⟩
    · rw [if_neg hlt]
      exact ih (hb.skip (by omega)) hd (by rwa [hnext]) (by omega)

/-- The key is met in a bucket, and its value overwritten. -/
theorem putLoop_meet (val : V) (hl : Lawful hash cmp) (h : Holds hash cmp map F) (hi : i < map.cap)
    (hk : key ≈ (map.data i).key) (ht : t < (map.data i).off) (hf : (map.data i).off ≤ t + fuel) :
    ∃ j < map.cap, (map.data j).off ≠ 0 ∧ key ≈ (map.data j).key ∧
      putLoop fuel map ⟨t + 1, key, val⟩ ((home hash key + t) % map.cap) =
        some (.ok (), { map with data := update map.data j { map.data j with val := val } }) := by
  have hhome := hl.home_congr hk
  induction fuel generalizing t with
  | zero => omega
  | succ fuel ih =>
    have hcap : 0 < map.cap := by omega
    have hb := h.ordered.before hi ht
    rw [← hhome] at hb
    obtain ⟨c, hc⟩ := hl.cmp key (map.data ((home hash key + t) % map.cap)).key
    have hc' : map.keyCmp key (map.data ((home hash key + t) % map.cap)).key = .ok c := by
      rw [h.keyCmp, hc]
    simp only [putLoop]
    rw [if_neg (by omega), hc']
    simp only
    by_cases hc0 : c = 0
    · rw [if_pos hc0]
      exact ⟨_, Nat.mod_lt _ hcap, Nat.ne_zero_of_lt hb, (hl.cmp_ne hc).mp hc0, rfl⟩
    · rw [if_neg hc0, if_neg (Nat.not_lt.mpr hb), h.and_mask hcap.ne', Nat.mod_add_mod,
        add_assoc (home hash key)]
      have hend : t + 1 ≠ (map.data i).off := by
        -- there the key of the bucket would have been met
        intro hend
        have hr := h.ordered.reaches hi (by omega)
        rw [← hhome, ← hend, Nat.add_sub_cancel] at hr
        rw [hr] at hc
        exact hc0 ((hl.cmp_ne hc).mpr hk)
      exact ih (by omega) (by omega)

theorem Holds.off_le_cap (h : Holds hash cmp map F) (hi : i < map.cap) : (map.data i).off ≤ map.cap := by
  obtain ⟨e, he, h0⟩ := h.empty_ahead (by omega) (home hash (map.data i).key)
  by_contra hlt
  have hb := h.ordered.before hi (t := e) (by omega)
  omega

variable [DecidableEq (Quotient s)]

/-- A value is overwritten. -/
theorem Holds.overwrite (h : Holds hash cmp map F) {j : ℕ} (hj : j < map.cap)
    (ho : (map.data j).off ≠ 0) {b : Slot K V} (hoff : b.off = (map.data j).off)
    (hkey : b.key = (map.data j).key) :
    Holds hash cmp { map with data := update map.data j b } (F.insert ⟦(map.data j).key⟧ b.val) := by
  have hlook := h.lookup hj ho
  have herase := Spec.insert_erase (F := F) (q := ⟦(map.data j).key⟧) (w := b.val)
  have hent : (RobinHood.entries map.cap (update map.data j b)).map Spec.entry =
      (F.insert ⟦(map.data j).key⟧ b.val).entries := by
    have hup := entries_update (T := map.data) (b := b) hj
    rw [Slot.entry_of_ne ho, Slot.entry_of_ne (by rwa [hoff]), hkey] at hup
    have hmap := congrArg (Multiset.map (Spec.entry (s := s))) hup
    rw [Multiset.map_add, Multiset.map_add, h.entries, Multiset.map_singleton, Multiset.map_singleton,
      Spec.entries_of_lookup hlook] at hmap
    rw [← herase, Finmap.entries_insert_of_notMem Finmap.notMem_erase_self]
    refine add_right_cancel (hmap.trans ?_)
    simp only [Spec.entry, ← Multiset.singleton_add]
    ac_rfl
  refine ⟨h.keyHash, h.keyCmp, h.cap, h.mask, h.ordered.overwrite hoff hkey, hent, ?_, h.load⟩
  simp only
  rw [h.size, Spec.card_keys, Spec.card_keys, ← herase,
    Finmap.entries_insert_of_notMem Finmap.notMem_erase_self, Spec.entries_of_lookup hlook,
    Multiset.card_cons, Multiset.card_cons]

/-- The loop of `a0_map_put` ends within as many turns as there are buckets. -/
theorem putLoop_spec (key : K) (val : V) (hl : Lawful hash cmp) (h : Holds hash cmp map F)
    (hload : map.size * 2 < map.cap) (hf : map.cap ≤ fuel) :
    ∃ map' : Map K V, putLoop fuel map ⟨1, key, val⟩ (home hash key % map.cap) = some (.ok (), map') ∧
      map'.cap = map.cap ∧ Holds hash cmp map' (F.insert ⟦key⟧ val) := by
  have hcap : 0 < map.cap := by omega
  by_cases hmem : ⟦key⟧ ∈ F
  · obtain ⟨i, hi, ho, hk⟩ := h.exists_slot hmem
    have hoff : (map.data i).off ≤ 0 + fuel := by
      rw [zero_add]
      exact (h.off_le_cap hi).trans hf
    obtain ⟨j, hj, hjo, hjk, hrun⟩ := putLoop_meet val hl h hi hk (by omega) hoff
    refine ⟨_, hrun, rfl, ?_⟩
    rw [Quotient.sound hjk]
    exact h.overwrite hj hjo rfl rfl
  · obtain ⟨e, he, h0⟩ := h.empty_ahead hcap (home hash key)
    have hd : Distinct s ((key, val) ::ₘ RobinHood.entries map.cap map.data) := by
      refine distinct_entries (F := F.insert ⟦key⟧ val) ?_
      rw [Multiset.map_cons, h.entries, Finmap.entries_insert_of_notMem hmem]
      rfl
    obtain ⟨T', hrun, hord, hent⟩ :=
      putLoop_carry hl h hcap (h.ordered.carrying key val rfl) hd h0 (he.trans_le hf)
    have hentries : (RobinHood.entries map.cap T').map Spec.entry = (F.insert ⟦key⟧ val).entries := by
      rw [hent, Multiset.map_cons, h.entries, Finmap.entries_insert_of_notMem hmem]
      rfl
    refine ⟨_, hrun, rfl, h.keyHash, h.keyCmp, h.cap, h.mask, hord, hentries, ?_, ?_⟩
    · simp only
      rw [h.size, Spec.card_keys, Spec.card_keys, Finmap.entries_insert_of_notMem hmem, Multiset.card_cons]
    · rcases h.cap with hk | ⟨k, hk⟩
      · omega
      · simp only
        rw [hk, pow_succ] at hload ⊢
        omega

/-- `a0_map_put`, if the map does not have to grow. -/
theorem insert_spec (key : K) (val : V) (hl : Lawful hash cmp) (h : Holds hash cmp map F)
    (hload : map.size * 2 < map.cap) :
    ∃ map' : Map K V, map.insert key val = some (.ok (), map') ∧ map'.cap = map.cap ∧
      Holds hash cmp map' (F.insert ⟦key⟧ val) := by
  rw [insert, h.keyHash, hl.hash_eq key]
  simp only
  rw [h.and_mask (by omega)]
  exact putLoop_spec key val hl h hload (Nat.le_succ map.cap)

/-! ### Iteration -/

omit [DecidableEq (Quotient s)] s

theorem iteratorLoop_spec {idx : ℕ} (hidx : idx ≤ map.cap) (hf : map.cap < idx + fuel) :
    (∃ j < map.cap, (map.data j).off ≠ 0 ∧ idx ≤ j ∧ map.iteratorLoop fuel idx = some (j, j + 1) ∧
      entriesFrom map.cap map.data idx =
        ((map.data j).key, (map.data j).val) ::ₘ entriesFrom map.cap map.data (j + 1)) ∨
    (∃ bkt, map.iteratorLoop fuel idx = some (bkt, map.cap + 1)) ∧
      entriesFrom map.cap map.data idx = 0 := by
  induction fuel generalizing idx with
  | zero => omega
  | succ fuel ih =>
    rw [iteratorLoop]
    rcases hidx.eq_or_lt with rfl | hlt
    · rw [if_neg (by omega)]
      exact .inr ⟨⟨_, rfl⟩, entriesFrom_of_le le_rfl⟩
    have hfrom := entriesFrom_of_lt (T := map.data) hlt
    by_cases ho : (map.data idx).off = 0
    · rw [if_pos ⟨hlt, ho⟩, hfrom, Slot.entry_of_empty ho, zero_add]
      rcases ih hlt (by omega) with ⟨j, hj, hjo, hle, hrun, hent⟩ | hnone
      · exact .inl ⟨j, hj, hjo, by omega, hrun, hent⟩
      · exact .inr hnone
    · rw [Slot.entry_of_ne ho, Multiset.singleton_add] at hfrom
      rw [if_neg fun h => ho h.2]
      exact .inl ⟨idx, hlt, ho, le_rfl, rfl, hfrom⟩

/-- `a0_map_iterator_next` gives the next entry, or there is none. -/
theorem iteratorNext_spec (map : Map K V) (idx : ℕ) :
    (∃ j < map.cap, idx ≤ j ∧
      map.iteratorNext idx = some (.ok ((map.data j).key, (map.data j).val), j + 1) ∧
      entriesFrom map.cap map.data idx =
        ((map.data j).key, (map.data j).val) ::ₘ entriesFrom map.cap map.data (j + 1)) ∨
    (∃ idx', map.iteratorNext idx = some (.error .iterDone, idx')) ∧
      entriesFrom map.cap map.data idx = 0 := by
  rw [iteratorNext]
  by_cases hidx : map.cap ≤ idx
  · rw [if_pos hidx]
    exact .inr ⟨⟨_, rfl⟩, entriesFrom_of_le hidx⟩
  rw [if_neg hidx]
  have hfuel : map.cap < idx + map.fuel := by unfold fuel; omega
  rcases iteratorLoop_spec (not_le.mp hidx).le hfuel with ⟨j, hj, -, hle, hrun, hent⟩ | ⟨⟨bkt, hrun⟩, hent⟩
  · refine .inl ⟨j, hj, hle, ?_, hent⟩
    rw [hrun]
    exact if_neg (by omega)
  · refine .inr ⟨⟨map.cap + 1, ?_⟩, hent⟩
    rw [hrun]
    exact if_pos (by omega)

/-- An iterator gives the entries that are ahead of it. -/
theorem iterate_spec {idx : ℕ} (hidx : idx ≤ map.cap) (hf : map.cap < idx + fuel) :
    ∃ l, map.iterate fuel idx = some (l, .iterDone) ∧
      (l : Multiset (K × V)) = entriesFrom map.cap map.data idx := by
  induction fuel generalizing idx with
  | zero => omega
  | succ fuel ih =>
    rw [iterate]
    rcases iteratorNext_spec map idx with ⟨j, hj, hle, hrun, hent⟩ | ⟨⟨idx', hrun⟩, hent⟩
    · have hturn : map.cap < j + 1 + fuel := by omega
      obtain ⟨l, hl, hl'⟩ := ih hj hturn
      rw [hrun]
      simp only [hl]
      exact ⟨_, rfl, by rw [hent, ← hl']; rfl⟩
    · rw [hrun]
      exact ⟨[], rfl, hent.symm⟩

/-! ### Growth -/

theorem fresh_cap [Inhabited K] [Inhabited V] (map : Map K V) : map.fresh.cap = map.nextCap := rfl

variable [s : Setoid K] [DecidableEq (Quotient s)] [Inhabited K] [Inhabited V] {hash : K → Except Err ℕ}
  {cmp : K → K → Except Err ℤ} {F : Spec s V}

omit [DecidableEq (Quotient s)] in
theorem Holds.fresh (h : Holds hash cmp map F) :
    Holds hash cmp map.fresh (∅ : Spec s V) where
  keyHash := h.keyHash
  keyCmp := h.keyCmp
  cap := by
    rw [fresh_cap, nextCap]
    rcases h.cap with hc | ⟨k, hk⟩
    · exact .inr ⟨1, by rw [if_pos hc]; rfl⟩
    · refine .inr ⟨k + 1, ?_⟩
      rw [if_neg (by rw [hk]; exact (Nat.two_pow_pos _).ne'), hk, pow_succ 2 (k + 1)]
  mask := rfl
  ordered := ordered_empty fun _ => rfl
  entries := by
    rw [RobinHood.entries, entriesFrom, Finset.sum_eq_zero fun i _ => Slot.entry_of_empty rfl]
    rfl
  size := rfl
  load := Nat.zero_le _

omit [Inhabited K] [Inhabited V] in
/-- The new map gets the entries that the old one still has, and never has to grow. -/
theorem growLoop_spec {idx : ℕ} {newMap : Map K V} {G : Spec s V} (hl : Lawful hash cmp)
    (h : Holds hash cmp newMap G) (hidx : idx ≤ map.cap) (hf : map.cap < idx + fuel)
    (hrest : G.entries + (entriesFrom map.cap map.data idx).map Spec.entry = F.entries)
    (hcap : F.keys.card * 2 ≤ newMap.cap) :
    ∃ map', (∀ put, Roomy put → growLoop put map fuel idx newMap = some (.ok map')) ∧
      Holds hash cmp map' F ∧ map'.cap = newMap.cap := by
  induction fuel generalizing idx newMap G with
  | zero => omega
  | succ fuel ih =>
    rcases iteratorNext_spec map idx with ⟨j, hj, hle, hrun, hent⟩ | ⟨⟨idx', hrun⟩, hent⟩
    · rw [hent, Multiset.map_cons] at hrest
      have hnew : ⟦(map.data j).key⟧ ∉ G := by
        have hn := F.nodupKeys.nodup_keys
        rw [← hrest, Multiset.add_cons, Multiset.keys, Multiset.map_cons, Multiset.map_add,
          Multiset.nodup_cons] at hn
        exact fun hm => hn.1 (Multiset.mem_add.mpr (.inl hm))
      have hload : newMap.size * 2 < newMap.cap := by
        have hcard := congrArg Multiset.card hrest
        rw [Multiset.card_add, Multiset.card_cons, ← Spec.card_keys, ← Spec.card_keys, ← h.size] at hcard
        omega
      obtain ⟨newMap', hput, hcap', h'⟩ := insert_spec (map.data j).key (map.data j).val hl h hload
      have hrest' : (G.insert ⟦(map.data j).key⟧ (map.data j).val).entries +
          (entriesFrom map.cap map.data (j + 1)).map Spec.entry = F.entries := by
        rw [Finmap.entries_insert_of_notMem hnew, ← hrest, Multiset.cons_add, Multiset.add_cons]
        rfl
      obtain ⟨map', hgrow, hmap', hend⟩ := ih h' hj (by omega) hrest' (by rwa [hcap'])
      refine ⟨map', fun put hroomy => ?_, hmap', hend.trans hcap'⟩
      rw [growLoop, hrun]
      simp only
      rw [hroomy _ _ _ hload, hput]
      exact hgrow put hroomy
    · rw [hent, Multiset.map_zero, add_zero] at hrest
      obtain rfl : G = F := Finmap.ext hrest
      exact ⟨newMap, fun put _ => by rw [growLoop, hrun], h, rfl⟩

/-- `a0_map_grow` makes a map that has room. -/
theorem grow_spec (hl : Lawful hash cmp) (h : Holds hash cmp map F) :
    ∃ map', (∀ put, Roomy put → map.grow put = some (.ok map')) ∧ Holds hash cmp map' F ∧
      map'.size * 2 < map'.cap ∧ map'.cap = map.nextCap := by
  have hload := h.load
  have hsize := h.size
  have hnext : map.cap + 1 < map.fresh.cap + 1 := by
    rw [fresh_cap, nextCap]
    split_ifs <;> omega
  have hrest : (∅ : Spec s V).entries + (entriesFrom map.cap map.data 0).map Spec.entry = F.entries :=
    (zero_add _).trans h.entries
  have hfuel : map.cap < 0 + map.fuel := by unfold fuel; omega
  obtain ⟨map', hrun, h', hcap⟩ := growLoop_spec hl h.fresh (Nat.zero_le _) hfuel hrest (by omega)
  exact ⟨map', hrun, h', by rw [hcap, h'.size]; omega, hcap⟩

/-- `a0_map_put`. -/
theorem put_spec (hl : Lawful hash cmp) (h : Holds hash cmp map F) (key : K) (val : V) :
    ∃ map', map.put key val = some (.ok (), map') ∧ Holds hash cmp map' (F.insert ⟦key⟧ val) ∧
      (map'.cap = map.cap ∨ map'.cap = map.nextCap) := by
  rw [put, putDepth]
  by_cases hload : map.cap ≤ map.size * 2
  · obtain ⟨map₁, hrun, h₁, hlt, hcap₁⟩ := grow_spec hl h
    obtain ⟨map₂, hrun₂, hcap₂, h₂⟩ := insert_spec key val hl h₁ hlt
    rw [if_pos hload, hrun _ (roomy_putDepth 0)]
    exact ⟨map₂, hrun₂, h₂, .inr (hcap₂.trans hcap₁)⟩
  · obtain ⟨map₂, hrun₂, hcap₂, h₂⟩ := insert_spec key val hl h (by omega)
    rw [if_neg hload]
    exact ⟨map₂, hrun₂, h₂, .inl hcap₂⟩

/-! ### Deletion -/

omit s [DecidableEq (Quotient s)] [Inhabited K] [Inhabited V] in
/-- The hole moves on to a bucket whose neighbour is at home, or is empty. -/
theorem delBucketLoop_spec (map : Map K V) {T : Table K V} {i e : ℕ} (hmask : ∀ n, n &&& map.hash2idx = n % map.cap)
    (hcap : 0 < map.cap) (hh : Hole map.cap (home hash) T i)
    (he : (T ((i + 1 + e) % map.cap)).off = 0) (hne : (i + 1 + e) % map.cap ≠ i % map.cap)
    (hf : e < fuel) :
    ∃ T', delBucketLoop fuel { map with data := T } (i % map.cap) = some { map with data := T' } ∧
      Ordered map.cap (home hash) T' ∧
      RobinHood.entries map.cap T' = RobinHood.entries map.cap T := by
  induction fuel generalizing T i e with
  | zero => omega
  | succ fuel ih =>
    simp only [delBucketLoop, hmask, Nat.mod_add_mod]
    by_cases hlt : 1 < (T ((i + 1) % map.cap)).off
    · rw [if_pos hlt]
      have he0 : e ≠ 0 := by
        rintro rfl
        rw [add_zero] at he
        omega
      have hnext : i + 1 + 1 + (e - 1) = i + 1 + e := by omega
      have hne' : (i + 1 + e) % map.cap ≠ (i + 1) % map.cap := fun heq => by
        rw [heq] at he
        omega
      obtain ⟨T', hrun, hord, hent⟩ := ih (hh.shift hlt) (e := e - 1)
        (by rwa [hnext, shift_of_ne hne hne']) (by rwa [hnext]) (by omega)
      exact ⟨T', hrun, hord, hent.trans (hh.entries_shift hcap hlt)⟩
    · rw [if_neg hlt]
      exact ⟨T, rfl, hh.close (by omega), rfl⟩

omit [DecidableEq (Quotient s)] [Inhabited K] [Inhabited V] in
/-- It moves on at most as often as there are buckets. -/
theorem delBucketLoop_ends (h : Holds hash cmp map F) {i : ℕ} (hi : i < map.cap) (ho : (map.data i).off ≠ 0)
    (hf : map.cap ≤ fuel) :
    ∃ T', delBucketLoop fuel
        { map with data := update map.data i { map.data i with off := 0 }, size := map.size - 1 } i =
          some { map with data := T', size := map.size - 1 } ∧
      Ordered map.cap (home hash) T' ∧
      RobinHood.entries map.cap T' = RobinHood.entries map.cap (update map.data i { map.data i with off := 0 }) := by
  have hcap : 0 < map.cap := by omega
  have himod : i % map.cap = i := Nat.mod_eq_of_lt hi
  have hhole := h.ordered.hole i
  rw [himod] at hhole
  obtain ⟨e, he, h0⟩ := h.empty_ahead hcap (i + 1)
  have hne : (i + 1 + e) % map.cap ≠ i := fun heq => ho (heq ▸ h0)
  have hloop := delBucketLoop_spec { map with size := map.size - 1 }
    (h.and_mask hcap.ne') hcap hhole (by rwa [update_of_ne hne]) (by rwa [himod]) (he.trans_le hf)
  simp only [himod] at hloop
  exact hloop

omit [Inhabited K] [Inhabited V] in
/-- `a0_map_del_bucket` erases the key of the bucket. -/
theorem delBucket_spec (h : Holds hash cmp map F) {i : ℕ} (hi : i < map.cap) (ho : (map.data i).off ≠ 0) :
    ∃ map', map.delBucket i = some map' ∧ Holds hash cmp map' (F.erase ⟦(map.data i).key⟧) ∧ map'.cap = map.cap := by
  obtain ⟨T', hrun, hord, hent⟩ := delBucketLoop_ends h hi ho (Nat.le_succ map.cap)
  have hlook := h.lookup hi ho
  have hup := entries_update (T := map.data) (b := { map.data i with off := 0 }) hi
  rw [Slot.entry_of_empty (b := { map.data i with off := 0 }) rfl, add_zero, ← hent,
    Slot.entry_of_ne ho] at hup
  have herased : (RobinHood.entries map.cap T').map Spec.entry = (F.erase ⟦(map.data i).key⟧).entries := by
    have hmap := congrArg (Multiset.map (Spec.entry (s := s))) hup
    rw [Multiset.map_add, h.entries, Multiset.map_singleton, Spec.entries_of_lookup hlook,
      add_comm, Multiset.singleton_add] at hmap
    exact (Multiset.cons_inj_right _).mp hmap
  have hsize := h.size
  rw [Spec.card_keys, Spec.entries_of_lookup hlook, Multiset.card_cons, ← Spec.card_keys] at hsize
  have hload := h.load
  exact ⟨_, hrun, ⟨h.keyHash, h.keyCmp, h.cap, h.mask, hord, herased, by simp only; omega,
    by simp only; omega⟩, rfl⟩

/-! ### Calls -/

/-- **A call on the map** does what it does to the finite map. -/
theorem call_spec (hl : Lawful hash cmp) (h : Holds hash cmp map F) (c : Call K V) :
    ∃ map', map.call c = some ((Spec.call F c).1, map') ∧ Holds hash cmp map' (Spec.call F c).2 := by
  cases c with
  | put key val =>
    obtain ⟨map', hrun, h', -⟩ := put_spec hl h key val
    exact ⟨map', by rw [call, hrun]; rfl, h'⟩
  | del key =>
    simp only [call, del, Spec.call]
    rcases find_spec hl h key with ⟨i, hi, hrun, ho, hk, hlook⟩ | ⟨hrun, hlook⟩
    · obtain ⟨map', hdel, h', -⟩ := delBucket_spec h hi ho
      rw [hrun, if_pos (Finmap.mem_of_lookup_eq_some hlook), Quotient.sound hk]
      simp only [hdel]
      exact ⟨map', rfl, h'⟩
    · rw [hrun, if_neg (Finmap.lookup_eq_none.mp hlook)]
      exact ⟨map, rfl, h⟩
  | pop key =>
    simp only [call, pop, Spec.call]
    rcases find_spec hl h key with ⟨i, hi, hrun, ho, hk, hlook⟩ | ⟨hrun, hlook⟩
    · obtain ⟨map', hdel, h', -⟩ := delBucket_spec h hi ho
      rw [hrun, hlook, Quotient.sound hk]
      simp only [hdel]
      exact ⟨map', rfl, h'⟩
    · rw [hrun, hlook]
      exact ⟨map, rfl, h⟩
  | get key =>
    simp only [call, get, Spec.call]
    rcases find_spec hl h key with ⟨i, -, hrun, -, -, hlook⟩ | ⟨hrun, hlook⟩
    · rw [hrun, hlook]
      exact ⟨map, rfl, h⟩
    · rw [hrun, hlook]
      exact ⟨map, rfl, h⟩
  | has key =>
    simp only [call, has, Spec.call]
    rcases find_spec hl h key with ⟨i, -, hrun, -, -, hlook⟩ | ⟨hrun, hlook⟩
    · rw [hrun, decide_eq_true (Finmap.mem_of_lookup_eq_some hlook)]
      exact ⟨map, rfl, h⟩
    · rw [hrun, decide_eq_false (Finmap.lookup_eq_none.mp hlook)]
      exact ⟨map, rfl, h⟩
  | size => exact ⟨map, by rw [call, h.size]; rfl, h⟩
  | empty => exact ⟨map, by rw [call, h.size]; rfl, h⟩

theorem run_spec (hl : Lawful hash cmp) (h : Holds hash cmp map F) (calls : List (Call K V)) :
    ∃ map', map.run calls = some ((Spec.run F calls).1, map') ∧ Holds hash cmp map' (Spec.run F calls).2 := by
  induction calls generalizing map F with
  | nil => exact ⟨map, rfl, h⟩
  | cons c calls ih =>
    obtain ⟨map₁, hcall, h₁⟩ := call_spec hl h c
    obtain ⟨map₂, hrun, h₂⟩ := ih h₁
    exact ⟨map₂, by simp only [run, hcall, hrun]; rfl, h₂⟩

/-- **The map is a finite map**: any calls on it, one after the other, return what they
return on a finite map, and an iterator then gives each entry of that finite map once,
and `A0_ERR_ITER_DONE` after the last one. -/
theorem map_refines {hash : K → Except Err ℕ} {cmp : K → K → Except Err ℤ} (hl : Lawful hash cmp)
    (calls : List (Call K V)) :
    ∃ map l, (init hash cmp).run calls = some ((Spec.run (∅ : Spec s V) calls).1, map) ∧
      map.iterate map.fuel 0 = some (l, .iterDone) ∧
      Multiset.ofList (l.map Spec.entry) = (Spec.run (∅ : Spec s V) calls).2.entries := by
  obtain ⟨map, hrun, h⟩ := run_spec hl holds_init calls
  have hfuel : map.cap < 0 + map.fuel := by unfold fuel; omega
  obtain ⟨l, hiter, hent⟩ := iterate_spec (Nat.zero_le _) hfuel
  refine ⟨map, l, hrun, hiter, ?_⟩
  rw [← Multiset.map_coe, hent]
  exact h.entries

/-- Two keys with one hash. -/
theorem map_refines_collide : ∃ (map : Map ℕ ℕ) (l : List (ℕ × ℕ)),
    (init (fun _ => .ok 7) fun a b => .ok ((a : ℤ) - b) : Map ℕ ℕ).run
      [.put 1 10, .put 2 20, .del 1, .get 2] =
        some ([.done (.ok ()), .done (.ok ()), .done (.ok ()), .val (.ok 20)], map) ∧
      map.iterate map.fuel 0 = some (l, .iterDone) ∧ l.length = 1 := by
  obtain ⟨s, hs⟩ : ∃ s : Setoid ℕ, ∀ a b, s a b ↔ a = b := ⟨⊥, fun _ _ => Iff.rfl⟩
  let _ : DecidableEq (Quotient s) := Classical.decEq _
  have hl : Lawful (fun _ : ℕ => .ok 7) (fun a b : ℕ => .ok ((a : ℤ) - b)) :=
    ⟨fun _ => ⟨7, rfl⟩, fun _ _ => ⟨_, rfl⟩, fun a b => by
      rw [Except.ok.injEq, sub_eq_zero, Int.natCast_inj]; exact (hs a b).symm, fun _ _ _ => rfl⟩
  have h21 : (⟦2⟧ : Quotient s) ≠ ⟦1⟧ := fun h => absurd ((hs 2 1).mp (Quotient.exact h)) (by decide)
  obtain ⟨map, l, hrun, hiter, hent⟩ := map_refines (V := ℕ) hl [.put 1 10, .put 2 20, .del 1, .get 2]
  have hcard := congrArg Multiset.card hent
  rw [Multiset.coe_card, List.length_map, ← Spec.card_keys] at hcard
  simp only [Spec.run, Spec.call, Finmap.mem_insert, or_true, true_or, if_true,
    Finmap.lookup_erase_ne h21, Finmap.lookup_insert, Finmap.keys_erase] at hrun hcard
  refine ⟨map, l, hrun, hiter, hcard.trans ?_⟩
  refine Finset.card_eq_one.mpr ⟨⟦2⟧, Finset.ext fun x => ?_⟩
  simp only [Finset.mem_erase, Finmap.mem_keys, Finmap.mem_insert, Finmap.notMem_empty, or_false,
    Finset.mem_singleton]
  exact ⟨fun h => h.2.resolve_right h.1, fun h => ⟨h ▸ h21, .inl h⟩⟩

end Map

end AlephZero
