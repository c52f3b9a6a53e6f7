import AlephZero.Map.Exact

/-!
# The table of a map

What holds of the buckets in every state that calls and growth reach, and how long the loops over them
take.

## What is proved

* `Holds.layout` — a map that holds a finite map has its entries where a Robin Hood table has them.
* `Holds.probes` — no loop takes more turns than there are buckets, and growing does not grow again.
* **`reachable_layout`** — so it is in every state that is reached.
-/

namespace AlephZero

open Function RobinHood

namespace Map

variable {K V : Type}

/-- What holds of the buckets. -/
structure Layout (map : Map K V) : Prop where
  size : map.size = ((Finset.range map.cap).filter fun i => (map.data i).off ≠ 0).card
  load : map.size * 2 ≤ map.cap
  cap : map.cap = 0 ∨ ∃ k, map.cap = 2 ^ (k + 2)
  placed : ∀ i < map.cap, (map.data i).off ≠ 0 → ∃ n, map.keyHash (map.data i).key = .ok n ∧
    ((i : ℤ) - ((map.data i).off - 1)) % map.cap = (n &&& map.hash2idx : ℕ)
  steps : ∀ i < map.cap, (map.data ((i + 1) &&& map.hash2idx)).off ≤ (map.data i).off + 1
  distinct : ∀ i < map.cap, ∀ j < map.cap, (map.data i).off ≠ 0 → (map.data j).off ≠ 0 →
    map.keyCmp (map.data i).key (map.data j).key = .ok 0 → i = j

/-- `a0_map_put`, as far as it goes without a growth. -/
def putWithin (map : Map K V) (key : K) (val : V) : Option (Except Err Unit × Map K V) :=
  if map.size * 2 < map.cap then map.insert key val else none

/-- As many turns as there are buckets are enough for the loops, and growing needs no other growth. -/
structure Probes [Inhabited K] [Inhabited V] (map : Map K V) : Prop where
  find : ∀ key hash, map.size ≠ 0 → map.keyHash key = .ok hash →
    map.findLoop key map.cap (hash &&& map.hash2idx) 1 ≠ none
  put : ∀ key val hash, map.size * 2 < map.cap → map.keyHash key = .ok hash →
    putLoop map.cap map ⟨1, key, val⟩ (hash &&& map.hash2idx) ≠ none
  del : ∀ i < map.cap, (map.data i).off ≠ 0 →
    delBucketLoop map.cap
      { map with data := update map.data i { map.data i with off := 0 }, size := map.size - 1 } i ≠ none
  grow : ∃ map', map.grow putWithin = some (.ok map') ∧ map.grow (putDepth 1) = some (.ok map')
  call : ∀ c, map.call c ≠ none

/-- What calls and growth reach from an empty map. -/
inductive Reachable [Inhabited K] [Inhabited V] (hash : K → Except Err ℕ) (cmp : K → K → Except Err ℤ) :
    Map K V → Prop where
  | init : Reachable hash cmp (.init hash cmp)
  | put {map map' : Map K V} {key val r} : Reachable hash cmp map → map.put key val = some (r, map') →
      Reachable hash cmp map'
  | del {map map' : Map K V} {key r} : Reachable hash cmp map → map.del key = some (r, map') →
      Reachable hash cmp map'
  | pop {map map' : Map K V} {key r} : Reachable hash cmp map → map.pop key = some (r, map') →
      Reachable hash cmp map'
  | grow {map map' : Map K V} : Reachable hash cmp map → map.grow (putDepth 1) = some (.ok map') →
      Reachable hash cmp map'

theorem roomy_putWithin : Roomy (@putWithin K V) := fun _ _ _ hload => if_pos hload

variable [s : Setoid K] {hash : K → Except Err ℕ} {cmp : K → K → Except Err ℤ} {map : Map K V} {F : Spec s V}

/-- A key is in one bucket only. -/
theorem Holds.slot_inj (h : Holds hash cmp map F) {i j : ℕ} (hi : i < map.cap) (hj : j < map.cap)
    (hio : (map.data i).off ≠ 0) (hjo : (map.data j).off ≠ 0) (hk : (map.data i).key ≈ (map.data j).key) : i = j := by
  by_contra hne
  -- the entry of the one bucket, and those that are there without it
  have hup := entries_update (T := map.data) (b := { map.data i with off := 0 }) hi
  rw [Slot.entry_of_empty (b := { map.data i with off := 0 }) rfl, add_zero, Slot.entry_of_ne hio, add_comm,
    Multiset.singleton_add] at hup
  have hd := distinct_entries h.entries
  rw [← hup, Distinct, Multiset.map_cons, Multiset.nodup_cons] at hd
  refine hd.1 (Multiset.mem_map.mpr ⟨((map.data j).key, (map.data j).val), ?_, (Quotient.sound hk).symm⟩)
  have hget := update_of_ne (Ne.symm hne) { map.data i with off := 0 } map.data
  have hslot := slot_mem_entries (T := update map.data i { map.data i with off := 0 }) hj (by rwa [hget])
  rwa [hget] at hslot

/-- The table of a map is laid out so. -/
theorem Holds.layout (hl : Lawful hash cmp) (h : Holds hash cmp map F)
    (hcap : map.cap = 0 ∨ ∃ k, map.cap = 2 ^ (k + 2)) : map.Layout where
  size := h.card_entries.symm.trans (RobinHood.card_entries ..)
  load := h.load
  cap := hcap
  placed i hi ho := by
    refine ⟨home hash (map.data i).key, h.keyHash ▸ hl.hash_eq _, ?_⟩
    have hmod : home hash (map.data i).key + (map.data i).off ≡ i + 1 [MOD map.cap] := h.ordered.placed i hi ho
    have hint := (Int.natCast_modEq_iff.mpr hmod).symm.sub_right ((map.data i).off : ℤ)
    rw [h.and_mask (by omega), Int.natCast_mod]
    push_cast at hint
    rw [add_sub_cancel_right, Int.ModEq] at hint
    rw [← hint]
    congr 1
    omega
  steps i hi := by
    have hstep := h.ordered.steps i
    rwa [Nat.mod_eq_of_lt hi, ← h.and_mask (by omega)] at hstep
  distinct i hi j hj hio hjo hcmp := by
    rw [h.keyCmp, hl.equiv] at hcmp
    exact h.slot_inj hi hj hio hjo hcmp

variable [DecidableEq (Quotient s)] [Inhabited K] [Inhabited V]

/-- So long its loops take. -/
theorem Holds.probes (hl : Lawful hash cmp) (h : Holds hash cmp map F) : map.Probes where
  find key n hsize hn := by
    have hcap := h.cap_pos hsize
    obtain ⟨e, he, hempty⟩ := h.empty_ahead hcap (home hash key)
    rw [h.keyHash, hl.hash_eq, Except.ok.injEq] at hn
    rw [← hn, h.and_mask hcap.ne']
    have hloop := findLoop_spec hl h hcap hempty (Nat.zero_le e) (he.trans_eq (zero_add _).symm) (by simp)
    rcases hloop with ⟨i, -, hr, -, -⟩ | ⟨hr, -⟩
    · exact fun hnone => by cases hr.symm.trans hnone
    · exact fun hnone => by cases hr.symm.trans hnone
  put key val n hload hn := by
    rw [h.keyHash, hl.hash_eq, Except.ok.injEq] at hn
    rw [← hn, h.and_mask (by omega)]
    obtain ⟨map', hr, -, -⟩ := putLoop_spec key val hl h hload le_rfl
    exact fun hnone => by cases hr.symm.trans hnone
  del i hi ho := by
    obtain ⟨T', hr, -, -⟩ := delBucketLoop_ends h hi ho le_rfl
    exact fun hnone => by cases hr.symm.trans hnone
  grow := by
    obtain ⟨map', hgrow, -, -, -⟩ := grow_spec hl h
    exact ⟨map', hgrow _ roomy_putWithin, hgrow _ (roomy_putDepth 0)⟩
  call c := by
    obtain ⟨map', hr, -⟩ := call_spec hl h c
    exact fun hnone => by cases hr.symm.trans hnone

omit s [DecidableEq (Quotient s)] [Inhabited K] [Inhabited V] in
/-- The capacity doubles, from four on. -/
theorem nextCap_pow (hcap : map.cap = 0 ∨ ∃ k, map.cap = 2 ^ (k + 2)) : ∃ k, map.nextCap = 2 ^ (k + 2) := by
  rw [nextCap]
  rcases hcap with hzero | ⟨k, hk⟩
  · exact ⟨0, by rw [if_pos hzero]; rfl⟩
  · have hne : map.cap ≠ 0 := by
      rw [hk]
      exact (Nat.two_pow_pos _).ne'
    exact ⟨k + 1, by rw [if_neg hne, hk, ← pow_succ]⟩

/-- Every state that is reached holds a finite map. -/
theorem Reachable.holds (hl : Lawful hash cmp) (h : Reachable hash cmp map) :
    (∃ F : Spec s V, Holds hash cmp map F) ∧ (map.cap = 0 ∨ ∃ k, map.cap = 2 ^ (k + 2)) := by
  induction h with
  | init => exact ⟨⟨∅, holds_init⟩, .inl rfl⟩
  | @put map map' key val r _ hput ih =>
    obtain ⟨⟨F, hF⟩, hcap⟩ := ih
    obtain ⟨map₁, hrun, h₁, hcap₁⟩ := put_spec hl hF key val
    rw [hrun] at hput
    cases hput
    refine ⟨⟨_, h₁⟩, ?_⟩
    rcases hcap₁ with hsame | hnext
    · rwa [hsame]
    · rw [hnext]
      exact .inr (nextCap_pow hcap)
  | @del map map' key r _ hdel ih =>
    obtain ⟨⟨F, hF⟩, hcap⟩ := ih
    rw [Map.del] at hdel
    rcases find_spec hl hF key with ⟨i, hi, hrun, ho, -, -⟩ | ⟨hrun, -⟩
    · obtain ⟨map₁, hdel₁, h₁, hcap₁⟩ := delBucket_spec hF hi ho
      simp only [hrun, hdel₁, Option.map_some] at hdel
      cases hdel
      exact ⟨⟨_, h₁⟩, hcap₁ ▸ hcap⟩
    · simp only [hrun] at hdel
      cases hdel
      exact ⟨⟨F, hF⟩, hcap⟩
  | @pop map map' key r _ hpop ih =>
    obtain ⟨⟨F, hF⟩, hcap⟩ := ih
    rw [Map.pop] at hpop
    rcases find_spec hl hF key with ⟨i, hi, hrun, ho, -, -⟩ | ⟨hrun, -⟩
    · obtain ⟨map₁, hdel₁, h₁, hcap₁⟩ := delBucket_spec hF hi ho
      simp only [hrun, hdel₁, Option.map_some] at hpop
      cases hpop
      exact ⟨⟨_, h₁⟩, hcap₁ ▸ hcap⟩
    · simp only [hrun] at hpop
      cases hpop
      exact ⟨⟨F, hF⟩, hcap⟩
  | @grow map map' _ hgrow ih =>
    obtain ⟨⟨F, hF⟩, hcap⟩ := ih
    obtain ⟨map₁, hrun, h₁, -, hcap₁⟩ := grow_spec hl hF
    rw [hrun _ (roomy_putDepth 0)] at hgrow
    cases hgrow
    exact ⟨⟨_, h₁⟩, hcap₁ ▸ .inr (nextCap_pow hcap)⟩

omit [DecidableEq (Quotient s)] in
/-- **In every state that is reached** the table is laid out so, and the loops take so long. -/
theorem reachable_layout (hl : Lawful hash cmp) (h : Reachable hash cmp map) : map.Layout ∧ map.Probes := by
  let _ : DecidableEq (Quotient s) := Classical.decEq _
  obtain ⟨⟨F, hF⟩, hcap⟩ := h.holds hl
  exact ⟨hF.layout hl hcap, hF.probes hl⟩

/-- Two keys with one hash, the second one away from home. -/
theorem reachable_layout_collide :
    ∃ map₁ map₂ : Map ℕ ℕ,
      (init (fun _ => .ok 7) fun a b => .ok ((a : ℤ) - b) : Map ℕ ℕ).put 1 10 = some (.ok (), map₁) ∧
        map₁.put 2 20 = some (.ok (), map₂) ∧ map₂.Layout ∧ map₂.Probes := by
  let _ : Setoid ℕ := ⊥
  have hl : Lawful (fun _ : ℕ => .ok 7) (fun a b : ℕ => .ok ((a : ℤ) - b)) :=
    Exact.lawful ⟨fun _ => ⟨7, rfl⟩, fun _ _ => ⟨_, rfl⟩, fun a b => by
      rw [Except.ok.injEq, sub_eq_zero, Int.natCast_inj]⟩
  obtain ⟨map₁, hput₁, h₁, -⟩ := put_spec hl (holds_init (V := ℕ)) 1 10
  obtain ⟨map₂, hput₂, -, -⟩ := put_spec hl h₁ 2 20
  exact ⟨map₁, map₂, hput₁, hput₂, reachable_layout hl (.put (.put .init hput₁) hput₂)⟩

end Map

end AlephZero
