import AlephZero.Map.Exact

/-!
# Callbacks that fail

The functions of the map again, with callbacks of which any call may fail: `fails n` says
whether the call number `n` does, counted from the start of the function. Otherwise hash and
comparison are those of the map.

## What is proved

* `Follows` — up to the first call that fails, a function does what it does without failures.
* `putLoop_lost` — a failure behind a bucket where the loop has put the new entry down in
  place of another loses an entry.
* **`failed_put_iff`** — a failed `a0_map_put` changes nothing if and only if that is not
  where the failure is; a failed `a0_map_del` or `a0_map_pop` never changes anything.
-/

namespace AlephZero

open Function RobinHood

namespace Map

namespace Fallible

variable {K V : Type}

/-- Which calls of the callbacks fail. -/
abbrev Failures := ℕ → Option Err

section Code

variable (fails : Failures)

/-- `a0_hash_eval`, the call number `n`. -/
def hashEval (map : Map K V) (key : K) (n : ℕ) : Except Err ℕ := (fails n).elim (map.keyHash key) .error

/-- `a0_cmp_eval`, the call number `n`. -/
def cmpEval (map : Map K V) (lhs rhs : K) (n : ℕ) : Except Err ℤ := (fails n).elim (map.keyCmp lhs rhs) .error

/-- The loop of `a0_map_find`. -/
def findLoop (map : Map K V) (key : K) : ℕ → ℕ → ℕ → ℕ → Option (Except Err ℕ)
  | 0, _, _, _ => none
  | fuel + 1, idx, off, n =>
    if off ≤ (map.data idx).off then
      match cmpEval fails map key (map.data idx).key n with
      | .error e => some (.error e)
      | .ok cmp =>
        if cmp = 0 then some (.ok idx)
        else findLoop map key fuel ((idx + 1) &&& map.hash2idx) (off + 1) (n + 1)
    else some (.error .notFound)

/-- `a0_map_find` -/
def find (map : Map K V) (key : K) : Option (Except Err ℕ) :=
  if map.size = 0 then some (.error .notFound)
  else
    match hashEval fails map key 0 with
    | .error e => some (.error e)
    | .ok hash => findLoop fails map key map.fuel (hash &&& map.hash2idx) 1 1

/-- What `a0_map_put` returns and leaves, and the number of the next call. -/
abbrev PutResult (K V : Type) := (Except Err Unit × Map K V) × ℕ

/-- The loop of `a0_map_put`. -/
def putLoop : ℕ → Map K V → Slot K V → ℕ → ℕ → Option (PutResult K V)
  | 0, _, _, _, _ => none
  | fuel + 1, map, new, idx, n =>
    let iter := map.data idx
    if iter.off = 0 then
      some ((.ok (), { map with data := update map.data idx new, size := map.size + 1 }), n)
    else
      match cmpEval fails map new.key iter.key n with
      | .error e => some ((.error e, map), n + 1)
      | .ok cmp =>
        if cmp = 0 then
          some ((.ok (), { map with data := update map.data idx { iter with val := new.val } }), n + 1)
        else if iter.off < new.off then
          putLoop fuel { map with data := update map.data idx new } { iter with off := iter.off + 1 }
            ((idx + 1) &&& map.hash2idx) (n + 1)
        else
          putLoop fuel map { new with off := new.off + 1 } ((idx + 1) &&& map.hash2idx) (n + 1)

/-- `a0_map_put` on a map that does not have to grow. -/
def insert (map : Map K V) (key : K) (val : V) (n : ℕ) : Option (PutResult K V) :=
  match hashEval fails map key n with
  | .error e => some ((.error e, map), n + 1)
  | .ok hash => putLoop fails map.fuel map ⟨1, key, val⟩ (hash &&& map.hash2idx) (n + 1)

/-- The loop of `a0_map_grow`. -/
def growLoop (put : Map K V → K → V → ℕ → Option (PutResult K V)) (map : Map K V) :
    ℕ → ℕ → Map K V → ℕ → Option (Except Err (Map K V) × ℕ)
  | 0, _, _, _ => none
  | fuel + 1, iter, newMap, n =>
    match map.iteratorNext iter with
    | none => none
    | some (.error _, _) => some (.ok newMap, n)
    | some (.ok (key, val), iter) =>
      match put newMap key val n with
      | none => none
      | some ((.error e, _), n) => some (.error e, n)
      | some ((.ok (), newMap), n) => growLoop put map fuel iter newMap n

variable [Inhabited K] [Inhabited V]

/-- `a0_map_grow` -/
def grow (put : Map K V → K → V → ℕ → Option (PutResult K V)) (map : Map K V) (n : ℕ) :
    Option (Except Err (Map K V) × ℕ) :=
  growLoop put map map.fuel 0 map.fresh n

/-- `a0_map_put`, with at most `depth` of its calls in one another. -/
def putDepth : ℕ → Map K V → K → V → ℕ → Option (PutResult K V)
  | 0, _, _, _, _ => none
  | depth + 1, map, key, val, n =>
    if map.cap ≤ map.size * 2 then
      match grow (putDepth depth) map n with
      | none => none
      | some (.error e, n) => some ((.error e, map), n)
      | some (.ok map, n) => insert fails map key val n
    else insert fails map key val n

/-- `a0_map_put` -/
def put (map : Map K V) (key : K) (val : V) : Option (Except Err Unit × Map K V) :=
  (putDepth fails 2 map key val 0).map Prod.fst

omit [Inhabited K] [Inhabited V]

/-- `a0_map_del` -/
def del (map : Map K V) (key : K) : Option (Except Err Unit × Map K V) :=
  match find fails map key with
  | none => none
  | some (.error e) => some (.error e, map)
  | some (.ok bkt) => (map.delBucket bkt).map fun map => (.ok (), map)

/-- `a0_map_pop` -/
def pop (map : Map K V) (key : K) : Option (Except Err V × Map K V) :=
  match find fails map key with
  | none => none
  | some (.error e) => some (.error e, map)
  | some (.ok bkt) => (map.delBucket bkt).map fun map' => (.ok (map.data bkt).val, map')

end Code

/-- The maps that calls with any failures lead to. -/
inductive Reached [Inhabited K] [Inhabited V] (hash : K → Except Err ℕ) (cmp : K → K → Except Err ℤ) :
    Map K V → Prop
  | init : Reached hash cmp (init hash cmp)
  | put {fails : Failures} {map map' : Map K V} {key : K} {val : V} {r : Except Err Unit} :
      Reached hash cmp map → put fails map key val = some (r, map') → Reached hash cmp map'
  | del {fails : Failures} {map map' : Map K V} {key : K} {r : Except Err Unit} :
      Reached hash cmp map → del fails map key = some (r, map') → Reached hash cmp map'
  | pop {fails : Failures} {map map' : Map K V} {key : K} {r : Except Err V} :
      Reached hash cmp map → pop fails map key = some (r, map') → Reached hash cmp map'

/-! ### Without failures -/

/-- No call fails. -/
def never : Failures := fun _ => none

theorem never_eq (n : ℕ) : never n = none := rfl

variable {fails : Failures} {map newMap : Map K V} {key : K} {val : V} {new : Slot K V} {fuel idx n n' : ℕ}

theorem hashEval_of_none (h : fails n = none) : hashEval fails map key n = map.keyHash key := by
  rw [hashEval, h]
  rfl

theorem cmpEval_of_none {lhs rhs : K} (h : fails n = none) : cmpEval fails map lhs rhs n = map.keyCmp lhs rhs := by
  rw [cmpEval, h]
  rfl

theorem cmpEval_ok {lhs rhs : K} {c : ℤ} (h : cmpEval fails map lhs rhs n = .ok c) : map.keyCmp lhs rhs = .ok c := by
  cases hn : fails n with
  | none => rwa [cmpEval_of_none hn] at h
  | some e =>
    rw [cmpEval, hn] at h
    cases h

theorem hashEval_ok {hash : ℕ} (h : hashEval fails map key n = .ok hash) : map.keyHash key = .ok hash := by
  cases hn : fails n with
  | none => rwa [hashEval_of_none hn] at h
  | some e =>
    rw [hashEval, hn] at h
    cases h

theorem hashEval_of_some {e : Err} (h : fails n = some e) : hashEval fails map key n = .error e := by
  rw [hashEval, h]
  rfl

theorem cmpEval_of_some {lhs rhs : K} {e : Err} (h : fails n = some e) : cmpEval fails map lhs rhs n = .error e := by
  rw [cmpEval, h]
  rfl

/-- The loop of `a0_map_put` is then that of the map. -/
theorem putLoop_never : (putLoop never fuel map new idx n).map Prod.fst = Map.putLoop fuel map new idx := by
  induction fuel generalizing map new idx n with
  | zero => rfl
  | succ fuel ih =>
    simp only [putLoop, Map.putLoop]
    by_cases hoff : (map.data idx).off = 0
    · rw [if_pos hoff, if_pos hoff]
      rfl
    · rw [if_neg hoff, if_neg hoff, cmpEval_of_none rfl]
      cases map.keyCmp new.key (map.data idx).key with
      | error e => rfl
      | ok cmp =>
        simp only
        split_ifs
        · rfl
        · exact ih
        · exact ih

theorem insert_never (map : Map K V) (key : K) (val : V) (n : ℕ) :
    (insert never map key val n).map Prod.fst = map.insert key val := by
  rw [insert, Map.insert, hashEval_of_none rfl]
  cases map.keyHash key with
  | error e => rfl
  | ok hash => exact putLoop_never

theorem growLoop_never {put : Map K V → K → V → ℕ → Option (PutResult K V)}
    {put' : Map K V → K → V → Option (Except Err Unit × Map K V)}
    (hput : ∀ map key val n, (put map key val n).map Prod.fst = put' map key val) :
    (growLoop put map fuel idx newMap n).map Prod.fst = Map.growLoop put' map fuel idx newMap := by
  induction fuel generalizing idx newMap n with
  | zero => rfl
  | succ fuel ih =>
    rw [growLoop, Map.growLoop]
    rcases map.iteratorNext idx with _ | ⟨⟨e⟩ | ⟨key, val⟩, idx'⟩
    · rfl
    · rfl
    · simp only
      rw [← hput newMap key val n]
      rcases put newMap key val n with _ | ⟨⟨⟨e⟩ | ⟨⟩, newMap'⟩, n'⟩
      · rfl
      · rfl
      · exact ih

theorem putDepth_never [Inhabited K] [Inhabited V] (depth : ℕ) (map : Map K V) (key : K) (val : V) (n : ℕ) :
    (putDepth never depth map key val n).map Prod.fst = Map.putDepth depth map key val := by
  induction depth generalizing map key val n with
  | zero => rfl
  | succ depth ih =>
    rw [putDepth, Map.putDepth]
    split_ifs with hload
    · have hgrow : (grow (putDepth never depth) map n).map Prod.fst = Map.grow (Map.putDepth depth) map :=
        growLoop_never ih
      rw [← hgrow]
      rcases grow (putDepth never depth) map n with _ | ⟨⟨e⟩ | ⟨map'⟩, n'⟩
      · rfl
      · rfl
      · exact insert_never ..
    · exact insert_never ..

/-! ### Turns -/

/-- The carried entry is put down at `idx`, and the one that was there is carried. -/
def swapped (map : Map K V) (new : Slot K V) (idx : ℕ) : Map K V := { map with data := update map.data idx new }

/-- The entry that is carried from `idx` to the next bucket. -/
def carried (map : Map K V) (new : Slot K V) (idx : ℕ) : Slot K V :=
  if (map.data idx).off < new.off then { map.data idx with off := (map.data idx).off + 1 }
  else { new with off := new.off + 1 }

/-- The map behind a turn of the loop that goes on. -/
def turned (map : Map K V) (new : Slot K V) (idx : ℕ) : Map K V :=
  if (map.data idx).off < new.off then swapped map new idx else map

/-- What a turn of the loop of `a0_map_put` does: the bucket is free, the comparison fails,
the key is met, or the loop goes on. -/
theorem putLoop_turn {x : Option (PutResult K V)} (h : putLoop fails (fuel + 1) map new idx n = x) :
    (map.data idx).off = 0 ∧
      x = some ((.ok (), { map with data := update map.data idx new, size := map.size + 1 }), n) ∨
    (map.data idx).off ≠ 0 ∧
      ((∃ e, cmpEval fails map new.key (map.data idx).key n = .error e ∧ x = some ((.error e, map), n + 1)) ∨
      cmpEval fails map new.key (map.data idx).key n = .ok 0 ∧
        x = some ((.ok (), { map with data := update map.data idx { map.data idx with val := new.val } }), n + 1) ∨
      ∃ c ≠ 0, cmpEval fails map new.key (map.data idx).key n = .ok c ∧
        x = putLoop fails fuel (turned map new idx) (carried map new idx) ((idx + 1) &&& map.hash2idx) (n + 1)) := by
  simp only [putLoop] at h
  by_cases hoff : (map.data idx).off = 0
  · rw [if_pos hoff] at h
    exact .inl ⟨hoff, h.symm⟩
  · rw [if_neg hoff] at h
    refine .inr ⟨hoff, ?_⟩
    cases hcmp : cmpEval fails map new.key (map.data idx).key n with
    | error e =>
      rw [hcmp] at h
      exact .inl ⟨e, rfl, h.symm⟩
    | ok c =>
      rw [hcmp] at h
      simp only at h
      by_cases hc : c = 0
      · rw [if_pos hc] at h
        exact .inr (.inl ⟨by rw [hc], h.symm⟩)
      · rw [if_neg hc] at h
        refine .inr (.inr ⟨c, hc, rfl, ?_⟩)
        rw [← h, turned, carried]
        split_ifs
        · rfl
        · rfl

/-! ### The number of calls -/

theorem putLoop_le {r : Except Err Unit × Map K V} (h : putLoop fails fuel map new idx n = some (r, n')) : n ≤ n' := by
  induction fuel generalizing map new idx n with
  | zero => cases h
  | succ fuel ih =>
    rcases putLoop_turn h with ⟨-, hx⟩ | ⟨-, ⟨e, -, hx⟩ | ⟨-, hx⟩ | ⟨c, -, -, hx⟩⟩
    · cases hx
      exact le_rfl
    · cases hx
      exact Nat.le_succ n
    · cases hx
      exact Nat.le_succ n
    · exact (Nat.le_succ n).trans (ih hx.symm)

theorem putLoop_lt {r : Except Err Unit × Map K V} (hoff : (map.data idx).off ≠ 0)
    (h : putLoop fails fuel map new idx n = some (r, n')) : n < n' := by
  cases fuel with
  | zero => cases h
  | succ fuel =>
    rcases putLoop_turn h with ⟨hfree, -⟩ | ⟨-, ⟨e, -, hx⟩ | ⟨-, hx⟩ | ⟨c, -, -, hx⟩⟩
    · exact absurd hfree hoff
    · cases hx
      exact Nat.lt_succ_self n
    · cases hx
      exact Nat.lt_succ_self n
    · exact putLoop_le hx.symm

theorem insert_lt {r : Except Err Unit × Map K V} (h : insert fails map key val n = some (r, n')) : n < n' := by
  rw [insert] at h
  cases hhash : hashEval fails map key n with
  | error e =>
    rw [hhash] at h
    cases h
    exact Nat.lt_succ_self n
  | ok hash =>
    rw [hhash] at h
    exact putLoop_le h

theorem growLoop_le {put : Map K V → K → V → ℕ → Option (PutResult K V)}
    (hput : ∀ map key val n r n', put map key val n = some (r, n') → n ≤ n') {r : Except Err (Map K V)}
    (h : growLoop put map fuel idx newMap n = some (r, n')) : n ≤ n' := by
  induction fuel generalizing idx newMap n with
  | zero => cases h
  | succ fuel ih =>
    rw [growLoop] at h
    rcases hnext : map.iteratorNext idx with _ | ⟨⟨e⟩ | ⟨key, val⟩, idx'⟩
    · rw [hnext] at h
      cases h
    · rw [hnext] at h
      cases h
      exact le_rfl
    · rw [hnext] at h
      simp only at h
      rcases hres : put newMap key val n with _ | ⟨⟨⟨e⟩ | ⟨⟩, newMap'⟩, n₁⟩
      · rw [hres] at h
        cases h
      · rw [hres] at h
        cases h
        exact hput _ _ _ _ _ _ hres
      · rw [hres] at h
        exact (hput _ _ _ _ _ _ hres).trans (ih h)

theorem putDepth_le [Inhabited K] [Inhabited V] {depth : ℕ} {r : Except Err Unit × Map K V}
    (h : putDepth fails depth map key val n = some (r, n')) : n ≤ n' := by
  induction depth generalizing map key val n r n' with
  | zero => cases h
  | succ depth ih =>
    rw [putDepth] at h
    split_ifs at h with hload
    · rcases hgrow : grow (putDepth fails depth) map n with _ | ⟨⟨e⟩ | ⟨map'⟩, n₁⟩
      · rw [hgrow] at h
        cases h
      · rw [hgrow] at h
        cases h
        exact growLoop_le (fun map key val n r n' h => ih h) hgrow
      · rw [hgrow] at h
        exact (growLoop_le (fun map key val n r n' h => ih h) hgrow).trans (insert_lt h).le
    · exact (insert_lt h).le

/-! ### Up to the first failure -/

/-- The call number `k` is the first from `n` on that fails. -/
structure FirstFailure (fails : Failures) (n k : ℕ) : Prop where
  le : n ≤ k
  failure : fails k ≠ none
  before : ∀ i, n ≤ i → i < k → fails i = none

/-- There is one at most. -/
theorem FirstFailure.unique {k k' : ℕ} (h : FirstFailure fails n k) (h' : FirstFailure fails n k') : k = k' := by
  rcases lt_trichotomy k k' with hlt | heq | hgt
  · exact absurd (h'.before k h.le hlt) h.failure
  · exact heq
  · exact absurd (h.before k' h'.le hgt) h'.failure

/-- A result of a function is the one without failures, and none of its calls fails; or it
is an error, and its last call is the first that fails. -/
structure Follows {ρ : Type} (failed : ρ → Prop) (fails : Failures) (n : ℕ) (x x₀ : Option (ρ × ℕ)) : Prop where
  returns : x = none → x₀ = none
  result : ∀ r n', x = some (r, n') →
    (∀ i, n ≤ i → i < n' → fails i = none) ∧ x₀ = some (r, n') ∨
      failed r ∧ FirstFailure fails n (n' - 1) ∧ n < n' ∧ ∀ r₀ n₀, x₀ = some (r₀, n₀) → n' ≤ n₀

section Follows

variable {ρ : Type} {failed : ρ → Prop} {x x₀ : Option (ρ × ℕ)}

/-- Calls that do not fail can come first. -/
theorem Follows.trans {m : ℕ} (hmn : m ≤ n) (hbefore : ∀ i, m ≤ i → i < n → fails i = none)
    (h : Follows failed fails n x x₀) : Follows failed fails m x x₀ := by
  refine ⟨h.returns, fun r n' hx => ?_⟩
  rcases h.result r n' hx with ⟨hnone, hx₀⟩ | ⟨hfailed, hfirst, hlt, hle⟩
  · refine .inl ⟨fun i hi hi' => ?_, hx₀⟩
    by_cases hin : i < n
    · exact hbefore i hi hin
    · exact hnone i (not_lt.mp hin) hi'
  · refine .inr ⟨hfailed, ⟨hmn.trans hfirst.le, hfirst.failure, fun i hi hi' => ?_⟩, by omega, hle⟩
    by_cases hin : i < n
    · exact hbefore i hi hin
    · exact hfirst.before i (not_lt.mp hin) hi'

theorem Follows.succ (hn : fails n = none) (h : Follows failed fails (n + 1) x x₀) : Follows failed fails n x x₀ := by
  apply h.trans (Nat.le_succ n)
  intro i hi hi'
  rwa [show i = n by omega]

/-- The call `n` itself fails. -/
theorem follows_failure {r : ρ} (hn : fails n ≠ none) (hr : failed r) (hx₀ : ∀ r₀ n₀, x₀ = some (r₀, n₀) → n < n₀) :
    Follows failed fails n (some (r, n + 1)) x₀ := by
  refine ⟨fun hx => (by cases hx), fun r' n' hx => ?_⟩
  cases hx
  exact .inr ⟨hr, ⟨le_rfl, hn, fun i hi hi' => absurd hi (not_le.mpr hi')⟩, Nat.lt_succ_self n, hx₀⟩

/-- A result without calls. -/
theorem follows_same {r : ρ} : Follows failed fails n (some (r, n)) (some (r, n)) := by
  refine ⟨fun hx => (by cases hx), fun r' n' hx => ?_⟩
  cases hx
  exact .inl ⟨fun i hi hi' => absurd hi (not_le.mpr hi'), rfl⟩

theorem follows_none : Follows failed fails n none none := ⟨fun _ => rfl, fun r n' hx => (by cases hx)⟩

end Follows

/-- A result is an error. -/
def Failed (r : Except Err Unit × Map K V) : Prop := ∃ e, r.1 = .error e

theorem putLoop_follows :
    Follows Failed fails n (putLoop fails fuel map new idx n) (putLoop never fuel map new idx n) := by
  induction fuel generalizing map new idx n with
  | zero => exact follows_none
  | succ fuel ih =>
    by_cases hoff : (map.data idx).off = 0
    · simp only [putLoop]
      rw [if_pos hoff, if_pos hoff]
      exact follows_same
    · rcases hn : fails n with _ | e
      · simp only [putLoop]
        rw [if_neg hoff, if_neg hoff, cmpEval_of_none hn, cmpEval_of_none (never_eq n)]
        cases map.keyCmp new.key (map.data idx).key with
        | error e => exact follows_same.succ hn
        | ok c =>
          simp only
          split_ifs
          · exact follows_same.succ hn
          · exact ih.succ hn
          · exact ih.succ hn
      · have hx : putLoop fails (fuel + 1) map new idx n = some ((.error e, map), n + 1) := by
          simp only [putLoop]
          rw [if_neg hoff, cmpEval_of_some hn]
        rw [hx]
        apply follows_failure
        · rw [hn]
          exact Option.some_ne_none e
        · exact ⟨e, rfl⟩
        · exact fun r₀ n₀ h => putLoop_lt hoff h

theorem insert_follows : Follows Failed fails n (insert fails map key val n) (insert never map key val n) := by
  rcases hn : fails n with _ | e
  · rw [insert, insert, hashEval_of_none hn, hashEval_of_none (never_eq n)]
    cases map.keyHash key with
    | error e => exact follows_same.succ hn
    | ok hash => exact putLoop_follows.succ hn
  · have hx : insert fails map key val n = some ((.error e, map), n + 1) := by rw [insert, hashEval_of_some hn]
    rw [hx]
    apply follows_failure
    · rw [hn]
      exact Option.some_ne_none e
    · exact ⟨e, rfl⟩
    · exact fun r₀ n₀ h => insert_lt h

/-- One function after the other; the second is not called when the first has failed. -/
theorem Follows.bind {ρ σ : Type} {failed : ρ → Prop} {failed' : σ → Prop} {x x₀ : Option (ρ × ℕ)}
    {k k₀ : ρ → ℕ → Option (σ × ℕ)} (h : Follows failed fails n x x₀) (hn : ∀ r n', x₀ = some (r, n') → n ≤ n')
    (hfailed : ∀ r n', failed r → ∃ r', failed' r' ∧ k r n' = some (r', n'))
    (hk : ∀ r n', Follows failed' fails n' (k r n') (k₀ r n'))
    (hle : ∀ r n' r' n'', k₀ r n' = some (r', n'') → n' ≤ n'') :
    Follows failed' fails n (x.bind fun p => k p.1 p.2) (x₀.bind fun p => k₀ p.1 p.2) := by
  rcases hx : x with _ | ⟨r, n'⟩
  · rw [h.returns hx]
    exact follows_none
  · rcases h.result r n' hx with ⟨hnone, hx₀⟩ | ⟨hr, hfirst, hlt, hle₀⟩
    · rw [hx₀]
      exact (hk r n').trans (hn r n' hx₀) hnone
    · obtain ⟨r', hr', hk'⟩ := hfailed r n' hr
      rw [Option.bind_some]
      simp only [hk']
      refine ⟨fun hx => (by cases hx), fun r'' n'' hx => ?_⟩
      cases hx
      refine .inr ⟨hr', hfirst, hlt, fun r₀ n₀ hx₀ => ?_⟩
      obtain ⟨⟨r₁, n₁⟩, hx₁, hk₁⟩ := Option.bind_eq_some_iff.mp hx₀
      exact (hle₀ r₁ n₁ hx₁).trans (hle r₁ n₁ r₀ n₀ hk₁)

/-- A turn of the loop of `a0_map_grow`, behind the call of `a0_map_put`. -/
def growNext (put : Map K V → K → V → ℕ → Option (PutResult K V)) (map : Map K V) (fuel iter : ℕ)
    (r : Except Err Unit × Map K V) (n : ℕ) : Option (Except Err (Map K V) × ℕ) :=
  match r with
  | (.error e, _) => some (.error e, n)
  | (.ok (), newMap) => growLoop put map fuel iter newMap n

theorem growLoop_succ {put : Map K V → K → V → ℕ → Option (PutResult K V)} {iter : ℕ}
    (h : map.iteratorNext idx = some (.ok (key, val), iter)) :
    growLoop put map (fuel + 1) idx newMap n =
      (put newMap key val n).bind fun p => growNext put map fuel iter p.1 p.2 := by
  rw [growLoop, h]
  simp only
  rcases put newMap key val n with _ | ⟨⟨⟨e⟩ | ⟨⟩, newMap'⟩, n₁⟩
  · rfl
  · rfl
  · rfl

theorem growLoop_follows {put put₀ : Map K V → K → V → ℕ → Option (PutResult K V)}
    (hle : ∀ map key val n r n', put₀ map key val n = some (r, n') → n ≤ n')
    (hput : ∀ map key val n, Follows Failed fails n (put map key val n) (put₀ map key val n)) :
    Follows (fun r => ∃ e, r = .error e) fails n (growLoop put map fuel idx newMap n)
      (growLoop put₀ map fuel idx newMap n) := by
  induction fuel generalizing idx newMap n with
  | zero => exact follows_none
  | succ fuel ih =>
    rcases hnext : map.iteratorNext idx with _ | ⟨⟨e⟩ | ⟨key, val⟩, iter⟩
    · rw [growLoop, growLoop, hnext]
      exact follows_none
    · rw [growLoop, growLoop, hnext]
      exact follows_same
    · rw [growLoop_succ hnext, growLoop_succ hnext]
      apply (hput newMap key val n).bind
      · exact fun r n' h => hle _ _ _ _ _ _ h
      · rintro ⟨r, newMap'⟩ n' ⟨e, rfl⟩
        exact ⟨.error e, ⟨e, rfl⟩, rfl⟩
      · rintro ⟨⟨e⟩ | ⟨⟩, newMap'⟩ n'
        · exact follows_same
        · exact ih
      · rintro ⟨⟨e⟩ | ⟨⟩, newMap'⟩ n' r' n'' h
        · cases h
          exact le_rfl
        · exact growLoop_le hle h

/-- `a0_map_put` behind the call of `a0_map_grow`. -/
def putNext (fails : Failures) (map : Map K V) (key : K) (val : V) (r : Except Err (Map K V)) (n : ℕ) :
    Option (PutResult K V) :=
  match r with
  | .error e => some ((.error e, map), n)
  | .ok map => insert fails map key val n

theorem putDepth_grow [Inhabited K] [Inhabited V] {depth : ℕ} (h : map.cap ≤ map.size * 2) :
    putDepth fails (depth + 1) map key val n =
      (grow (putDepth fails depth) map n).bind fun p => putNext fails map key val p.1 p.2 := by
  rw [putDepth, if_pos h]
  rcases grow (putDepth fails depth) map n with _ | ⟨⟨e⟩ | ⟨map'⟩, n₁⟩
  · rfl
  · rfl
  · rfl

theorem putDepth_follows [Inhabited K] [Inhabited V] (depth : ℕ) (map : Map K V) (key : K) (val : V) (n : ℕ) :
    Follows Failed fails n (putDepth fails depth map key val n) (putDepth never depth map key val n) := by
  induction depth generalizing map key val n with
  | zero => exact follows_none
  | succ depth ih =>
    by_cases hload : map.cap ≤ map.size * 2
    · rw [putDepth_grow hload, putDepth_grow hload]
      apply Follows.bind (growLoop_follows (fun _ _ _ _ _ _ h => putDepth_le h) ih)
      · exact fun r n' h => growLoop_le (fun _ _ _ _ _ _ h => putDepth_le h) h
      · rintro r n' ⟨e, rfl⟩
        exact ⟨(.error e, map), ⟨e, rfl⟩, rfl⟩
      · rintro (⟨e⟩ | ⟨map'⟩) n'
        · exact follows_same
        · exact insert_follows
      · rintro (⟨e⟩ | ⟨map'⟩) n' r' n'' h
        · cases h
          exact le_rfl
        · exact (insert_lt h).le
    · rw [putDepth, putDepth, if_neg hload, if_neg hload]
      exact insert_follows

/-! ### Deletion -/

/-- A bucket that is found in spite of failures. -/
theorem find_ok {bkt : ℕ} (h : find fails map key = some (.ok bkt)) : map.find key = some (.ok bkt) := by
  have hloop : ∀ fuel idx off n, findLoop fails map key fuel idx off n = some (.ok bkt) →
      map.findLoop key fuel idx off = some (.ok bkt) := by
    intro fuel
    induction fuel with
    | zero => exact fun _ _ _ h => by cases h
    | succ fuel ih =>
      intro idx off n h
      rw [findLoop] at h
      rw [Map.findLoop]
      split_ifs at h ⊢ with hoff
      · cases hcmp : cmpEval fails map key (map.data idx).key n with
        | error e =>
          rw [hcmp] at h
          cases h
        | ok c =>
          rw [hcmp] at h
          rw [cmpEval_ok hcmp]
          simp only at h ⊢
          split_ifs at h ⊢
          · exact h
          · exact ih _ _ _ h
      · cases h
  rw [find] at h
  rw [Map.find]
  split_ifs at h ⊢
  · cases h
  · cases hhash : hashEval fails map key 0 with
    | error e =>
      rw [hhash] at h
      cases h
    | ok hash =>
      rw [hhash] at h
      rw [hashEval_ok hhash]
      exact hloop _ _ _ _ h

/-- `a0_map_del` fails and leaves the map, or deletes the bucket it has found. -/
theorem del_cases {r : Except Err Unit} {m : Map K V} (h : del fails map key = some (r, m)) :
    (∃ e, r = .error e) ∧ m = map ∨
      (∀ e, r ≠ .error e) ∧ ∃ bkt, find fails map key = some (.ok bkt) ∧ map.delBucket bkt = some m := by
  rw [del] at h
  rcases hfind : find fails map key with _ | ⟨e⟩ | ⟨bkt⟩
  · rw [hfind] at h
    cases h
  · rw [hfind] at h
    cases h
    exact .inl ⟨⟨e, rfl⟩, rfl⟩
  · rw [hfind] at h
    obtain ⟨m', hm', heq⟩ := Option.map_eq_some_iff.mp h
    cases heq
    exact .inr ⟨fun e he => (by cases he), bkt, rfl, hm'⟩

/-- `a0_map_pop` does the same. -/
theorem pop_cases {r : Except Err V} {m : Map K V} (h : pop fails map key = some (r, m)) :
    (∃ e, r = .error e) ∧ m = map ∨
      (∀ e, r ≠ .error e) ∧ ∃ bkt, find fails map key = some (.ok bkt) ∧ map.delBucket bkt = some m := by
  rw [pop] at h
  rcases hfind : find fails map key with _ | ⟨e⟩ | ⟨bkt⟩
  · rw [hfind] at h
    cases h
  · rw [hfind] at h
    cases h
    exact .inl ⟨⟨e, rfl⟩, rfl⟩
  · rw [hfind] at h
    obtain ⟨m', hm', heq⟩ := Option.map_eq_some_iff.mp h
    cases heq
    exact .inr ⟨fun e he => (by cases he), bkt, rfl, hm'⟩

/-! ### Where an entry is displaced -/

/-- The bucket that the loop of `a0_map_put` is at in its turn `t`. -/
def slotAt (map : Map K V) (key : K) (t : ℕ) : Slot K V := map.data ((home map.keyHash key + t) % map.cap)

/-- In turn `t`, the loop of `a0_map_put` puts the new entry down in place of another. -/
structure Displaces (map : Map K V) (key : K) (t : ℕ) : Prop where
  occupied : (slotAt map key t).off ≠ 0
  smaller : (slotAt map key t).off < t + 1
  before : ∀ u < t, u + 1 ≤ (slotAt map key u).off
  other : ∀ u ≤ t, map.keyCmp key (slotAt map key u).key ≠ .ok 0

/-- Every key has the same value in both maps, and they have as many. -/
structure Unchanged [Inhabited K] [Inhabited V] (map map' : Map K V) : Prop where
  get : ∀ key, map'.get key = map.get key
  has : ∀ key, map'.has key = map.has key
  size : map'.size = map.size

/-- The map that the entry is inserted in: it has grown, if it had to. -/
def roomy [Inhabited K] [Inhabited V] (map : Map K V) : Map K V :=
  if map.cap ≤ map.size * 2 then ((Map.grow (Map.putDepth 1) map).bind Except.toOption).getD map else map

/-- How many calls of the callbacks growing takes, if none fails. -/
def growCalls [Inhabited K] [Inhabited V] (map : Map K V) : ℕ :=
  if map.cap ≤ map.size * 2 then ((grow (putDepth never 1) map 0).map Prod.snd).getD 0 else 0

/-- The first call that fails is a comparison behind the bucket where the new entry is put
down in place of another: growing and the hash come first, and one comparison for each turn. -/
def LateFailure [Inhabited K] [Inhabited V] (fails : Failures) (map : Map K V) (key : K) : Prop :=
  ∃ k t, FirstFailure fails 0 k ∧ Displaces (roomy map) key t ∧ growCalls map + 1 + t < k

section Semantics

variable [s : Setoid K] {hash : K → Except Err ℕ} {cmp : K → K → Except Err ℤ} {F : Spec s V} {i t e b : ℕ}
  {m : Map K V} {err : Err}

omit s in
/-- An error comes from a call. -/
theorem putLoop_error_lt (h : putLoop fails fuel map new idx n = some ((.error err, m), n')) : n < n' := by
  cases fuel with
  | zero => cases h
  | succ fuel =>
    by_cases hoff : (map.data idx).off = 0
    · rcases putLoop_turn h with ⟨-, hx⟩ | ⟨hne, -⟩
      · cases hx
      · exact absurd hoff hne
    · exact putLoop_lt hoff h

/-- **A failure behind a displacement** loses the entry that is carried. Only buckets in front
of the free one have been overwritten. -/
theorem putLoop_lost (h : Holds hash cmp map F) (hcap : 0 < map.cap) {T : Table K V} {new : Slot K V}
    (hc : Carrying map.cap (home hash) T new i) (he : (T ((i + e) % map.cap)).off = 0)
    (hx : putLoop fails fuel { map with data := T } new (i % map.cap) n = some ((.error err, m), n')) :
    ∃ T', m = { map with data := T' } ∧ Ordered map.cap (home hash) T' ∧
      (∃ lost, lost ::ₘ RobinHood.entries map.cap T' = (new.key, new.val) ::ₘ RobinHood.entries map.cap T) ∧
      ∀ x, (∀ u < e, x ≠ (i + u) % map.cap) → T' x = T x := by
  induction fuel generalizing T new i e n with
  | zero => cases hx
  | succ fuel ih =>
    have hi : i % map.cap < map.cap := Nat.mod_lt _ hcap
    rcases putLoop_turn hx with ⟨-, hx⟩ | ⟨ho, ⟨err', -, hx⟩ | ⟨-, hx⟩ | ⟨c, -, -, hx⟩⟩
    · cases hx
    · cases hx
      exact ⟨T, rfl, hc.ordered, ⟨_, rfl⟩, fun x _ => rfl⟩
    · cases hx
    · have ho : (T (i % map.cap)).off ≠ 0 := ho
      have he0 : e ≠ 0 := by
        rintro rfl
        exact ho he
      have hnext : i + 1 + (e - 1) = i + e := by omega
      have hmask : (i % map.cap + 1) &&& map.hash2idx = (i + 1) % map.cap := by
        rw [h.and_mask hcap.ne', Nat.mod_add_mod]
      simp only [turned, carried, hmask] at hx
      by_cases hlt : (T (i % map.cap)).off < new.off
      · rw [if_pos hlt, if_pos hlt] at hx
        have hne : (i + e) % map.cap ≠ i % map.cap := fun heq => ho (heq ▸ he)
        obtain ⟨T', hm, hord, ⟨lost, hlost⟩, hframe⟩ := ih (hc.swap hcap ho hlt) (e := e - 1)
          (by rwa [hnext, update_of_ne hne]) hx.symm
        refine ⟨T', hm, hord, ⟨lost, hlost.trans (entries_swap hi ho hc.occupied)⟩, fun x hx => ?_⟩
        have hxi : x ≠ i % map.cap := hx 0 (by omega)
        rw [hframe x fun u hu => ?_, update_of_ne hxi]
        rw [show i + 1 + u = i + (u + 1) by omega]
        exact hx (u + 1) (by omega)
      · rw [if_neg hlt, if_neg hlt] at hx
        obtain ⟨T', hm, hord, hlost, hframe⟩ := ih (hc.skip (by omega)) (e := e - 1) (by rwa [hnext]) hx.symm
        refine ⟨T', hm, hord, hlost, fun x hx => hframe x fun u hu => ?_⟩
        rw [show i + 1 + u = i + (u + 1) by omega]
        exact hx (u + 1) (by omega)

/-- The loop has passed the buckets in front of turn `t`. -/
def Going (map : Map K V) (key : K) (t : ℕ) : Prop :=
  ∀ u < t, u + 1 ≤ (slotAt map key u).off ∧ ¬ key ≈ (slotAt map key u).key

/-- A key that has not been met where the distance is too small is not there. -/
theorem Going.notMem [DecidableEq (Quotient s)] (hl : Lawful hash cmp) (h : Holds hash cmp map F) (hg : Going map key t)
    (hlt : (slotAt map key t).off < t + 1) : ⟦key⟧ ∉ F := by
  intro hmem
  obtain ⟨j, hj, ho, hk⟩ := h.exists_slot hmem
  have hhome := hl.home_congr hk
  have hslot : ∀ u, slotAt map key u = map.data ((home hash (map.data j).key + u) % map.cap) := by
    intro u
    rw [slotAt, h.keyHash, hhome]
  by_cases ht : t < (map.data j).off
  · have hb := h.ordered.before hj ht
    rw [← hslot] at hb
    omega
  · -- its bucket is behind the loop
    have hr := h.ordered.reaches hj ho
    have hpassed := (hg ((map.data j).off - 1) (by omega)).2
    rw [hslot, hr] at hpassed
    exact hpassed hk

/-- What a failure behind a displacement leaves: one entry is lost, and the new one is there. -/
structure Lost (hash : K → Except Err ℕ) (map : Map K V) (key : K) (val : V) (F : Spec s V) (m : Map K V) : Prop where
  notMem : ⟦key⟧ ∉ F
  eq : ∃ T', m = { map with data := T' } ∧ Ordered map.cap (home hash) T' ∧
    (∃ lost, lost ::ₘ RobinHood.entries map.cap T' = (key, val) ::ₘ RobinHood.entries map.cap map.data) ∧
    ∃ p < map.cap, (T' p).off ≠ 0 ∧ (T' p).key = key

/-- The entry of the bucket is carried on, and the failure comes later. -/
theorem putLoop_displaced (h : Holds hash cmp map F) (hcap : 0 < map.cap)
    (hc : Carrying map.cap (home hash) map.data ⟨t + 1, key, val⟩ (home hash key + t))
    (ho : (map.data ((home hash key + t) % map.cap)).off ≠ 0)
    (hlt : (map.data ((home hash key + t) % map.cap)).off < t + 1)
    (he : (map.data ((home hash key + e) % map.cap)).off = 0) (hte : t ≤ e) (hecap : e < map.cap) (hnot : ⟦key⟧ ∉ F)
    (hx : putLoop fails fuel (swapped map ⟨t + 1, key, val⟩ ((home hash key + t) % map.cap))
      { map.data ((home hash key + t) % map.cap) with off := (map.data ((home hash key + t) % map.cap)).off + 1 }
      ((home hash key + t + 1) % map.cap) n = some ((.error err, m), n')) : Lost hash map key val F m := by
  have hi : (home hash key + t) % map.cap < map.cap := Nat.mod_lt _ hcap
  have hte' : t ≠ e := by
    rintro rfl
    exact ho he
  have hnext : home hash key + t + 1 + (e - t - 1) = home hash key + e := by omega
  -- the buckets that are overwritten lie between this one and the free one
  have hbetween : ∀ u < e - t, (home hash key + t) % map.cap ≠ (home hash key + t + 1 + u) % map.cap := by
    intro u hu heq
    have hsub := Nat.sub_mod_eq_zero_of_mod_eq heq.symm
    rw [show home hash key + t + 1 + u - (home hash key + t) = u + 1 by omega, Nat.mod_eq_of_lt (by omega)] at hsub
    exact absurd hsub (Nat.succ_ne_zero u)
  have hfree : (update map.data ((home hash key + t) % map.cap) ⟨t + 1, key, val⟩
      ((home hash key + t + 1 + (e - t - 1)) % map.cap)).off = 0 := by
    rw [update_of_ne (hbetween (e - t - 1) (by omega)).symm, hnext, he]
  obtain ⟨T', hm, hord, ⟨lost, hlost⟩, hframe⟩ := putLoop_lost h hcap (hc.swap hcap ho hlt) hfree hx
  have hswap := entries_swap (b := ⟨t + 1, key, val⟩) hi ho (Nat.succ_ne_zero t)
  refine ⟨hnot, T', hm, hord, ⟨lost, hlost.trans hswap⟩, (home hash key + t) % map.cap, hi, ?_⟩
  rw [hframe _ fun u hu => hbetween u (by omega), update_self]
  exact ⟨Nat.succ_ne_zero t, rfl⟩

/-- **The walk of a failed insertion**, from turn `t` on: the map is as it was and no
displacement is behind the loop, or an entry is lost. -/
theorem putLoop_walk [DecidableEq (Quotient s)] (hl : Lawful hash cmp) (h : Holds hash cmp map F) (hcap : 0 < map.cap)
    (hc : Carrying map.cap (home hash) map.data ⟨t + 1, key, val⟩ (home hash key + t)) (hg : Going map key t)
    (he : (map.data ((home hash key + e) % map.cap)).off = 0) (hte : t ≤ e) (hecap : e < map.cap)
    (hx : putLoop fails fuel map ⟨t + 1, key, val⟩ ((home hash key + t) % map.cap) (b + t) =
      some ((.error err, m), n')) :
    m = map ∧ (∀ u, Displaces map key u → n' ≤ b + u + 1) ∨
      Lost hash map key val F m ∧ ∃ u, Displaces map key u ∧ b + u + 1 < n' := by
  induction fuel generalizing t with
  | zero => cases hx
  | succ fuel ih =>
    have hslot : slotAt map key t = map.data ((home hash key + t) % map.cap) := by rw [slotAt, h.keyHash]
    have hi : (home hash key + t) % map.cap < map.cap := Nat.mod_lt _ hcap
    rcases putLoop_turn hx with ⟨-, hx⟩ | ⟨ho, ⟨err', -, hx⟩ | ⟨-, hx⟩ | ⟨c, hc0, hcmp, hx⟩⟩
    · cases hx
    · cases hx
      refine .inl ⟨rfl, fun u hu => ?_⟩
      have htu : t ≤ u := by
        by_contra hlt
        have hpassed := (hg u (by omega)).1
        have hsmaller := hu.smaller
        omega
      omega
    · cases hx
    · have hother : ¬ key ≈ (slotAt map key t).key := by
        have hbase := cmpEval_ok hcmp
        rw [h.keyCmp, ← hslot] at hbase
        exact fun hk => hc0 ((hl.cmp_ne hbase).mpr hk)
      have hmask : ((home hash key + t) % map.cap + 1) &&& map.hash2idx = (home hash key + t + 1) % map.cap := by
        rw [h.and_mask hcap.ne', Nat.mod_add_mod]
      simp only [turned, carried, hmask] at hx
      by_cases hlt : (map.data ((home hash key + t) % map.cap)).off < t + 1
      · rw [if_pos hlt, if_pos hlt] at hx
        have hlt' : (slotAt map key t).off < t + 1 := by rwa [hslot]
        have hdisplaces : Displaces map key t := by
          refine ⟨by rwa [hslot], hlt', fun u hu => (hg u hu).1, fun u hu heq => ?_⟩
          rw [h.keyCmp] at heq
          have hk := (hl.equiv _ _).mp heq
          rcases hu.lt_or_eq with hlt | rfl
          · exact (hg u hlt).2 hk
          · exact hother hk
        have hlost := putLoop_displaced h hcap hc ho hlt he hte hecap
          (hg.notMem hl h hlt') hx.symm
        have hcall := putLoop_error_lt hx.symm
        exact .inr ⟨hlost, t, hdisplaces, hcall⟩
      · rw [if_neg hlt, if_neg hlt] at hx
        have hte' : t ≠ e := by
          rintro rfl
          exact ho he
        apply ih (t := t + 1) (hc.skip (not_lt.mp hlt)) ?_ (by omega) hx.symm
        intro u hu
        by_cases hut : u = t
        · rw [hut]
          refine ⟨?_, hother⟩
          rw [hslot]
          omega
        · exact hg u (by omega)

/-! ### The invariant -/

variable [DecidableEq (Quotient s)]

omit [DecidableEq (Quotient s)] in
/-- The map with the new entry and without the lost one holds a finite map, too. -/
theorem Lost.holds [DecidableEq (Quotient s)] (h : Holds hash cmp map F) (hlost : Lost hash map key val F m) :
    ∃ F', Holds hash cmp m F' ∧ ⟦key⟧ ∈ F' := by
  obtain ⟨T', rfl, hord, ⟨lost, hent⟩, p, hp, hpo, hpk⟩ := hlost.eq
  have hd : Distinct s ((key, val) ::ₘ RobinHood.entries map.cap map.data) := by
    refine distinct_entries (F := F.insert ⟦key⟧ val) ?_
    rw [Multiset.map_cons, h.entries, Finmap.entries_insert_of_notMem hlost.notMem]
    rfl
  rw [← hent, Distinct, Multiset.map_cons, Multiset.nodup_cons] at hd
  have hnodup : ((RobinHood.entries map.cap T').map Spec.entry).NodupKeys := by
    rw [← Multiset.nodup_keys, Multiset.keys, Multiset.map_map]
    exact hd.2
  have hcard : (RobinHood.entries map.cap T').card = map.size := by
    have hsum := congrArg Multiset.card hent
    rw [Multiset.card_cons, Multiset.card_cons, h.card_entries] at hsum
    omega
  let F' : Spec s V := ⟨(RobinHood.entries map.cap T').map Spec.entry, hnodup⟩
  have hF' : Holds hash cmp { map with data := T' } F' := by
    refine ⟨h.keyHash, h.keyCmp, h.cap, h.mask, hord, rfl, ?_, h.load⟩
    rw [Spec.card_keys, Multiset.card_map, hcard]
  refine ⟨F', hF', ?_⟩
  rw [← hpk]
  exact Finmap.mem_of_lookup_eq_some (hF'.lookup hp hpo)

section Growth

variable [Inhabited K] [Inhabited V]

omit [Inhabited K] [Inhabited V] in
/-- `a0_map_get`, of a map that holds a finite map. -/
theorem get_eq (hl : Lawful hash cmp) (h : Holds hash cmp map F) (key : K) :
    map.get key = some (found (F.lookup ⟦key⟧)) := by
  rw [Map.get]
  rcases find_spec hl h key with ⟨i, -, hrun, -, -, hv⟩ | ⟨hrun, hv⟩
  · rw [hrun, hv]
    rfl
  · rw [hrun, hv]
    rfl

omit [Inhabited K] [Inhabited V] in
/-- `a0_map_has` -/
theorem has_eq (hl : Lawful hash cmp) (h : Holds hash cmp map F) (key : K) :
    map.has key = some (F.lookup ⟦key⟧).isSome := by
  rw [Map.has]
  rcases find_spec hl h key with ⟨i, -, hrun, -, -, hv⟩ | ⟨hrun, hv⟩
  · rw [hrun, hv]
    rfl
  · rw [hrun, hv]
    rfl

/-- Two maps that hold one finite map give the same. -/
theorem unchanged_of_holds (hl : Lawful hash cmp) (h : Holds hash cmp map F) (h' : Holds hash cmp m F) :
    Unchanged map m where
  get key := by rw [get_eq hl h, get_eq hl h']
  has key := by rw [has_eq hl h, has_eq hl h']
  size := by rw [h.size, h'.size]

/-- The new key was not there. -/
theorem Lost.not_unchanged (hl : Lawful hash cmp) (h : Holds hash cmp map F) (hlost : Lost hash map key val F m)
    {map₀ : Map K V} (h₀ : Holds hash cmp map₀ F) : ¬ Unchanged map₀ m := by
  intro hsame
  obtain ⟨F', h', hmem⟩ := hlost.holds h
  have hhas := hsame.has key
  rw [has_eq hl h', has_eq hl h₀, Finmap.lookup_eq_none.mpr hlost.notMem] at hhas
  obtain ⟨v, hv⟩ := Finmap.mem_iff.mp hmem
  rw [hv] at hhas
  cases hhas

omit [Inhabited K] [Inhabited V] in
/-- What a failed insertion leaves, by the number of the first call that fails. -/
theorem insert_failed (hl : Lawful hash cmp) (h : Holds hash cmp map F) (hload : map.size * 2 < map.cap)
    (hx : insert fails map key val n = some ((.error err, m), n')) :
    m = map ∧ (∀ k u, FirstFailure fails n k → Displaces map key u → k ≤ n + 1 + u) ∨
      Lost hash map key val F m ∧ ∃ k u, FirstFailure fails n k ∧ Displaces map key u ∧ n + 1 + u < k := by
  obtain ⟨-, hfirst, hlt⟩ : Failed (.error err, m) ∧ FirstFailure fails n (n' - 1) ∧ n < n' := by
    rcases insert_follows.result _ _ hx with ⟨-, hx₀⟩ | ⟨hr, hfirst, hlt, -⟩
    · -- without failures there is no error
      have hbase := insert_never map key val n
      obtain ⟨map', hrun, -⟩ := insert_spec key val hl h hload
      rw [hx₀, hrun] at hbase
      cases hbase
    · exact ⟨hr, hfirst, hlt⟩
  have hcap : 0 < map.cap := by omega
  rw [insert] at hx
  cases hhash : hashEval fails map key n with
  | error e =>
    rw [hhash] at hx
    cases hx
    refine .inl ⟨rfl, fun k u hk _ => ?_⟩
    have := hfirst.unique hk
    omega
  | ok n₀ =>
    have hn₀ : n₀ = home hash key := by
      have hbase := hashEval_ok hhash
      rw [h.keyHash, hl.hash_eq, Except.ok.injEq] at hbase
      exact hbase.symm
    rw [hhash] at hx
    simp only [hn₀] at hx
    rw [h.and_mask hcap.ne'] at hx
    obtain ⟨e, he, hfree⟩ := h.empty_ahead hcap (home hash key)
    have hgoing : Going map key 0 := fun u hu => absurd hu (Nat.not_lt_zero u)
    rcases putLoop_walk (t := 0) (b := n + 1) hl h hcap (h.ordered.carrying key val rfl) hgoing hfree
      (Nat.zero_le e) he hx with
      ⟨hm, hno⟩ | ⟨hlost, u, hu, hn'⟩
    · refine .inl ⟨hm, fun k u hk hu => ?_⟩
      have hle := hno u hu
      have := hfirst.unique hk
      omega
    · exact .inr ⟨hlost, n' - 1, u, hfirst, hu, by omega⟩

omit [Inhabited K] [Inhabited V] in
/-- An insertion that does not fail. -/
theorem insert_done (hl : Lawful hash cmp) (h : Holds hash cmp map F) (hload : map.size * 2 < map.cap)
    (hx : insert fails map key val n = some ((.ok (), m), n')) : Holds hash cmp m (F.insert ⟦key⟧ val) := by
  obtain ⟨map', hrun, -, h'⟩ := insert_spec key val hl h hload
  rcases insert_follows.result _ _ hx with ⟨-, hx₀⟩ | ⟨⟨e, he⟩, -⟩
  · have hbase := insert_never map key val n
    rw [hx₀, hrun] at hbase
    cases hbase
    exact h'
  · cases he

/-! ### Calls -/

theorem roomy_spec (hl : Lawful hash cmp) (h : Holds hash cmp map F) :
    Holds hash cmp (roomy map) F ∧ (roomy map).size * 2 < (roomy map).cap := by
  rw [roomy]
  split_ifs with hload
  · obtain ⟨map', hgrow, h', hlt, -⟩ := grow_spec hl h
    rw [show Map.grow (Map.putDepth 1) map = some (.ok map') from hgrow _ (roomy_putDepth 0)]
    exact ⟨h', hlt⟩
  · exact ⟨h, by omega⟩

/-- `a0_map_put`: growing fails, or the entry is inserted in the map that has room. -/
theorem put_cases (hl : Lawful hash cmp) (h : Holds hash cmp map F) {r : Except Err Unit}
    (hx : put fails map key val = some (r, m)) :
    (∃ e k, r = .error e ∧ m = map ∧ FirstFailure fails 0 k ∧ k < growCalls map) ∨
      ∃ n', insert fails (roomy map) key val (growCalls map) = some ((r, m), n') ∧
        ∀ i < growCalls map, fails i = none := by
  obtain ⟨⟨p, n'⟩, hx, rfl⟩ := Option.map_eq_some_iff.mp hx
  by_cases hload : map.cap ≤ map.size * 2
  · rw [putDepth_grow hload] at hx
    obtain ⟨⟨res, n₁⟩, hgrow, hnext⟩ := Option.bind_eq_some_iff.mp hx
    obtain ⟨map', hbase, -⟩ := grow_spec hl h
    replace hbase := hbase _ (roomy_putDepth 0)
    have hnever : (grow (putDepth never 1) map 0).map Prod.fst = some (.ok map') :=
      (growLoop_never (putDepth_never 1)).trans hbase
    obtain ⟨⟨res₀, n₀⟩, hgrow₀, hres₀⟩ := Option.map_eq_some_iff.mp hnever
    have hcalls : growCalls map = n₀ := by
      rw [growCalls, if_pos hload, hgrow₀]
      rfl
    have hroomy : roomy map = map' := by
      rw [roomy, if_pos hload, show Map.grow (Map.putDepth 1) map = some (.ok map') from hbase]
      rfl
    have hfollows : Follows (fun r => ∃ e, r = .error e) fails 0 (grow (putDepth fails 1) map 0)
        (grow (putDepth never 1) map 0) :=
      growLoop_follows (fun _ _ _ _ _ _ h => putDepth_le h) (putDepth_follows 1)
    rw [hcalls, hroomy]
    rcases hfollows.result res n₁ hgrow with ⟨hnone, hsame⟩ | ⟨⟨e, rfl⟩, hfirst, hlt, hle⟩
    · rw [hgrow₀, Option.some.injEq, Prod.mk.injEq] at hsame
      obtain ⟨rfl, rfl⟩ := hsame
      cases hres₀
      exact .inr ⟨n', hnext, fun i hi => hnone i (Nat.zero_le i) hi⟩
    · have hn₀ := hle _ _ hgrow₀
      cases hnext
      exact .inl ⟨e, n₁ - 1, rfl, rfl, hfirst, by omega⟩
  · rw [putDepth, if_neg hload] at hx
    refine .inr ⟨n', ?_, fun i hi => ?_⟩
    · rwa [roomy, growCalls, if_neg hload, if_neg hload]
    · rw [growCalls, if_neg hload] at hi
      exact absurd hi (Nat.not_lt_zero i)

omit [Inhabited K] [Inhabited V] in
/-- What is deleted in spite of failures. -/
theorem delete_holds (hl : Lawful hash cmp) (h : Holds hash cmp map F) {bkt : ℕ}
    (hfind : find fails map key = some (.ok bkt)) (hdel : map.delBucket bkt = some m) :
    ∃ F', Holds hash cmp m F' := by
  rcases find_spec hl h key with ⟨i, hi, hrun, ho, -, -⟩ | ⟨hrun, -⟩
  · rw [find_ok hfind, Option.some.injEq, Except.ok.injEq] at hrun
    subst hrun
    obtain ⟨map', hdel', h', -⟩ := delBucket_spec h hi ho
    rw [hdel, Option.some.injEq] at hdel'
    subst hdel'
    exact ⟨_, h'⟩
  · rw [find_ok hfind] at hrun
    cases hrun

/-- **Every map that calls lead to holds a finite map**, whichever calls of the callbacks have
failed. -/
theorem Reached.holds (hl : Lawful hash cmp) (h : Reached hash cmp map) : ∃ F : Spec s V, Holds hash cmp map F := by
  induction h with
  | init => exact ⟨∅, holds_init⟩
  | put _ hput ih =>
    obtain ⟨F, hF⟩ := ih
    obtain ⟨hroomy, hload⟩ := roomy_spec hl hF
    rcases put_cases hl hF hput with ⟨e, k, -, rfl, -⟩ | ⟨n', hins, -⟩
    · exact ⟨F, hF⟩
    · rename_i r _
      cases r with
      | ok => exact ⟨_, insert_done hl hroomy hload hins⟩
      | error e =>
        rcases insert_failed hl hroomy hload hins with ⟨rfl, -⟩ | ⟨hlost, -⟩
        · exact ⟨F, hroomy⟩
        · obtain ⟨F', h', -⟩ := hlost.holds hroomy
          exact ⟨F', h'⟩
  | del _ hdel ih =>
    obtain ⟨F, hF⟩ := ih
    rcases del_cases hdel with ⟨-, rfl⟩ | ⟨-, bkt, hfind, hbkt⟩
    · exact ⟨F, hF⟩
    · exact delete_holds hl hF hfind hbkt
  | pop _ hpop ih =>
    obtain ⟨F, hF⟩ := ih
    rcases pop_cases hpop with ⟨-, rfl⟩ | ⟨-, bkt, hfind, hbkt⟩
    · exact ⟨F, hF⟩
    · exact delete_holds hl hF hfind hbkt

/-- `a0_map_put` returns. -/
theorem exists_put (hl : Lawful hash cmp) (h : Holds hash cmp map F) (fails : Failures) (key : K) (val : V) :
    ∃ r m, put fails map key val = some (r, m) := by
  rcases hx : putDepth fails 2 map key val 0 with _ | ⟨⟨r, m⟩, n'⟩
  · have hnever := (putDepth_follows 2 map key val 0).returns hx
    have hbase := putDepth_never 2 map key val 0
    obtain ⟨map', hput, -, -⟩ := put_spec hl h key val
    rw [hnever, show Map.putDepth 2 map key val = some (.ok (), map') from hput] at hbase
    cases hbase
  · exact ⟨r, m, by rw [put, hx]; rfl⟩

/-- A failed `a0_map_put` changes nothing, or an entry is lost: by where the failure is. -/
theorem put_failed (hl : Lawful hash cmp) (h : Holds hash cmp map F)
    (hx : put fails map key val = some (.error err, m)) : Unchanged map m ↔ ¬ LateFailure fails map key := by
  obtain ⟨hroomy, hload⟩ := roomy_spec hl h
  rcases put_cases hl h hx with ⟨e, k, -, rfl, hfirst, hk⟩ | ⟨n', hins, hnone⟩
  · refine iff_of_true (unchanged_of_holds hl h h) ?_
    rintro ⟨k', t, hfirst', -, hlate⟩
    have := hfirst.unique hfirst'
    omega
  · rcases insert_failed hl hroomy hload hins with ⟨rfl, hearly⟩ | ⟨hlost, k, t, hfirst, hdisp, hlate⟩
    · refine iff_of_true (unchanged_of_holds hl h hroomy) ?_
      rintro ⟨k, t, hfirst, hdisp, hlate⟩
      have hle := hearly k t ⟨by omega, hfirst.failure, fun i _ hi => hfirst.before i (Nat.zero_le i) hi⟩ hdisp
      omega
    · refine iff_of_false (hlost.not_unchanged hl hroomy h) (not_not.mpr ⟨k, t, ?_, hdisp, hlate⟩)
      refine ⟨Nat.zero_le k, hfirst.failure, fun i _ hi => ?_⟩
      by_cases hin : i < growCalls map
      · exact hnone i hin
      · exact hfirst.before i (not_lt.mp hin) hi

end Growth

end Semantics

/-- **A failed call changes nothing**, except an `a0_map_put` whose failing comparison is
behind the bucket where the new entry has been put down in place of another. -/
theorem failed_put_iff [s : Setoid K] [Inhabited K] [Inhabited V] {hash : K → Except Err ℕ}
    {cmp : K → K → Except Err ℤ} (hl : Lawful hash cmp) {map : Map K V} (hmap : Reached hash cmp map)
    (fails : Failures) (key : K) :
    (∀ val, ∃ r m, put fails map key val = some (r, m) ∧
      ∀ err, r = .error err → (Unchanged map m ↔ ¬ LateFailure fails map key)) ∧
    (∀ err m, del fails map key = some (.error err, m) → Unchanged map m) ∧
    (∀ err m, pop fails map key = some (.error err, m) → Unchanged map m) := by
  classical
  obtain ⟨F, h⟩ := hmap.holds hl
  refine ⟨fun val => ?_, fun err m hx => ?_, fun err m hx => ?_⟩
  · obtain ⟨r, m, hx⟩ := exists_put hl h fails key val
    refine ⟨r, m, hx, fun err herr => ?_⟩
    subst herr
    exact put_failed hl h hx
  · rcases del_cases hx with ⟨-, rfl⟩ | ⟨hok, -⟩
    · exact unchanged_of_holds hl h h
    · exact absurd rfl (hok err)
  · rcases pop_cases hx with ⟨-, rfl⟩ | ⟨hok, -⟩
    · exact unchanged_of_holds hl h h
    · exact absurd rfl (hok err)

/-! ### A map of numbers -/

section Numbers

/-- Only this call fails. -/
def failAt (k : ℕ) : Failures := fun n => if n = k then some .again else none

/-- The hash of a number is the number. -/
def numHash (a : ℕ) : Except Err ℕ := .ok a

def numCmp (a b : ℕ) : Except Err ℤ := .ok ((a : ℤ) - b)

/-- The map with these entries. -/
def numMap : List (ℕ × ℕ) → Option (Map ℕ ℕ)
  | [] => some (Map.init numHash numCmp)
  | (key, val) :: l => (numMap l).bind fun map => (put never map key val).map Prod.snd

theorem numMap_reached {l : List (ℕ × ℕ)} {map : Map ℕ ℕ} (h : numMap l = some map) : Reached numHash numCmp map := by
  induction l generalizing map with
  | nil =>
    cases h
    exact .init
  | cons p l ih =>
    obtain ⟨map₁, h₁, hput⟩ := Option.bind_eq_some_iff.mp h
    obtain ⟨⟨r, map₂⟩, hres, rfl⟩ := Option.map_eq_some_iff.mp hput
    exact (ih h₁).put hres

/-- A first insertion, whose hash fails. -/
theorem failed_put_iff_init :
    (∀ val, ∃ r m, put (failAt 0) (Map.init numHash numCmp : Map ℕ ℕ) 8 val = some (r, m) ∧
      ∀ err, r = .error err → (Unchanged (Map.init numHash numCmp) m ↔
        ¬ LateFailure (failAt 0) (Map.init numHash numCmp : Map ℕ ℕ) 8)) ∧
    (∀ err m, del (failAt 0) (Map.init numHash numCmp : Map ℕ ℕ) 8 = some (.error err, m) →
      Unchanged (Map.init numHash numCmp) m) ∧
    (∀ err m, pop (failAt 0) (Map.init numHash numCmp : Map ℕ ℕ) 8 = some (.error err, m) →
      Unchanged (Map.init numHash numCmp) m) := by
  let _ : Setoid ℕ := ⊥
  have hl : Lawful numHash numCmp := by
    refine ⟨fun a => ⟨a, rfl⟩, fun a b => ⟨_, rfl⟩, fun a b => ?_, fun a b hab => congrArg numHash hab⟩
    rw [numCmp, Except.ok.injEq, sub_eq_zero, Int.natCast_inj]
    exact Iff.rfl
  exact failed_put_iff hl .init (failAt 0) 8

/-- The numbers 0, 1 and 2 are at home. The number 8 belongs to the bucket of 0, and is put
down in place of 1; when 1 is compared with 2, the comparison fails. -/
theorem failed_put_loses : ∃ map m : Map ℕ ℕ, Reached numHash numCmp map ∧
    put (failAt 3) map 8 80 = some (.error .again, m) ∧ ¬ Unchanged map m ∧
    map.get 1 = some (.ok 10) ∧ m.get 1 = some (.error .notFound) := by
  have hrun : (numMap [(2, 20), (1, 10), (0, 0)]).bind (fun map => (put (failAt 3) map 8 80).map fun p =>
      (p.1, map.get 1, p.2.get 1)) = some (.error .again, some (.ok 10), some (.error .notFound)) := by
    decide +kernel
  obtain ⟨map, hmap, hput⟩ := Option.bind_eq_some_iff.mp hrun
  obtain ⟨⟨r, m⟩, hput, hgets⟩ := Option.map_eq_some_iff.mp hput
  rw [Prod.mk.injEq, Prod.mk.injEq] at hgets
  obtain ⟨rfl, hbefore, hafter⟩ := hgets
  refine ⟨map, m, numMap_reached hmap, hput, fun hsame => ?_, hbefore, hafter⟩
  have hget := hsame.get 1
  rw [hbefore, hafter] at hget
  cases hget

end Numbers

end Fallible

end Map

end AlephZero
