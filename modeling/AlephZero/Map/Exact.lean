import AlephZero.Map.Refinement
import Mathlib

/-!
# Maps that tell all keys apart

If the comparison gives zero on equal keys only, the map is a function from keys to
values, and each call is a change of that function.

## What is proved

* `put_represents`, `del_represents`, `pop_represents`, `get_represents`, `has_represents` — what a call
  returns, and what it leaves.
-/

namespace AlephZero

open Function

namespace Map

variable {K V : Type} {hash : K → Except Err ℕ} {cmp : K → K → Except Err ℤ} {map : Map K V} {e : K → Option V}

/-- The callbacks do not fail, and comparison gives zero on equal keys only. -/
structure Exact (keyHash : K → Except Err ℕ) (keyCmp : K → K → Except Err ℤ) : Prop where
  hash : ∀ k, ∃ n, keyHash k = .ok n
  cmp : ∀ a b, ∃ c, keyCmp a b = .ok c
  eq : ∀ a b, keyCmp a b = .ok 0 ↔ a = b

instance [DecidableEq K] : DecidableEq (Quotient (⊥ : Setoid K)) :=
  @Quotient.decidableEq K ⊥ fun a b => inferInstanceAs (Decidable (a = b))

/-- The map gives these values. -/
def Represents [DecidableEq K] (hash : K → Except Err ℕ) (cmp : K → K → Except Err ℤ) (map : Map K V)
    (e : K → Option V) : Prop :=
  ∃ F : Spec (⊥ : Setoid K) V, @Holds K V ⊥ hash cmp map F ∧
    ∀ k, F.lookup (Quotient.mk ⊥ k) = e k

theorem Exact.lawful (h : Exact hash cmp) : @Lawful K ⊥ hash cmp := by
  let _ : Setoid K := ⊥
  exact ⟨h.hash, h.cmp, fun a b => h.eq a b, fun a b hab => congrArg hash (show a = b from hab)⟩

theorem init_represents [DecidableEq K] [Inhabited K] [Inhabited V] :
    (init hash cmp : Map K V).Represents hash cmp fun _ => none := by
  let _ : Setoid K := ⊥
  exact ⟨∅, holds_init, fun k => Finmap.lookup_empty _⟩

theorem mk_inj {a b : K} : Quotient.mk ⊥ a = Quotient.mk ⊥ b ↔ a = b :=
  ⟨fun h => Quotient.exact (s := ⊥) h, fun h => congrArg _ h⟩

/-- `a0_map_put` returns `A0_OK`. -/
theorem put_represents [Inhabited K] [Inhabited V] [DecidableEq K] (hl : Exact hash cmp)
    (h : map.Represents hash cmp e) (key : K) (val : V) :
    ∃ map', map.put key val = some (.ok (), map') ∧ map'.Represents hash cmp (update e key (some val)) := by
  let _ : Setoid K := ⊥
  obtain ⟨F, hF, hlook⟩ := h
  obtain ⟨map', hrun, h', -⟩ := put_spec hl.lawful hF key val
  refine ⟨map', hrun, _, h', fun k => ?_⟩
  rw [update_apply]
  split_ifs with hk
  · rw [hk]
    exact Finmap.lookup_insert F
  · rw [← hlook k]
    exact Finmap.lookup_insert_of_ne _ (mt mk_inj.mp hk)

/-- What `a0_map_find` gives, and what is left when the bucket is deleted. -/
theorem find_represents [Inhabited K] [Inhabited V] [DecidableEq K] (hl : Exact hash cmp)
    (h : map.Represents hash cmp e) (key : K) :
    (∃ bkt map', map.find key = some (.ok bkt) ∧ e key = some (map.data bkt).val ∧ map.delBucket bkt = some map' ∧
      map'.Represents hash cmp (update e key none)) ∨
    map.find key = some (.error .notFound) ∧ e key = none := by
  let _ : Setoid K := ⊥
  obtain ⟨F, hF, hlook⟩ := h
  rcases find_spec hl.lawful hF key with ⟨i, hi, hrun, ho, hk, hv⟩ | ⟨hrun, hv⟩
  · obtain ⟨map', hdel, h', -⟩ := delBucket_spec hF hi ho
    refine .inl ⟨i, map', hrun, (hlook key).symm.trans hv, hdel, _, h', fun k => ?_⟩
    rw [← Quotient.sound (s := ⊥) hk, update_apply]
    split_ifs with hkey
    · rw [hkey]
      exact Finmap.lookup_erase _ _
    · rw [← hlook k]
      exact Finmap.lookup_erase_ne (mt mk_inj.mp hkey)
  · exact .inr ⟨hrun, (hlook key).symm.trans hv⟩

/-- What a call reports of a key. -/
def found (r : Option V) : Except Err V := r.elim (.error .notFound) .ok

@[simp] theorem toOption_found {r : Option V} : (found r).toOption = r := by cases r <;> rfl

section Calls

variable [DecidableEq K] [Inhabited K] [Inhabited V]

/-- `a0_map_get`. -/
theorem get_represents (hl : Exact hash cmp) (h : map.Represents hash cmp e) (key : K) :
    map.get key = some (found (e key)) := by
  rw [get]
  rcases find_represents hl h key with ⟨bkt, map', hfind, hv, -, -⟩ | ⟨hfind, hv⟩ <;> rw [hfind, hv] <;> rfl

/-- `a0_map_has`. -/
theorem has_represents (hl : Exact hash cmp) (h : map.Represents hash cmp e) (key : K) :
    map.has key = some (e key).isSome := by
  rw [has]
  rcases find_represents hl h key with ⟨bkt, map', hfind, hv, -, -⟩ | ⟨hfind, hv⟩ <;> rw [hfind, hv] <;> rfl

/-- `a0_map_pop`. -/
theorem pop_represents (hl : Exact hash cmp) (h : map.Represents hash cmp e) (key : K) :
    ∃ map', map.pop key = some (found (e key), map') ∧ map'.Represents hash cmp (update e key none) := by
  rw [pop]
  rcases find_represents hl h key with ⟨bkt, map', hfind, hv, hdel, h'⟩ | ⟨hfind, hv⟩
  · exact ⟨map', by simp only [hfind, hdel, hv, Option.map_some]; rfl, h'⟩
  · refine ⟨map, by rw [hfind, hv]; rfl, ?_⟩
    rwa [← hv, update_eq_self]

/-- `a0_map_del`. -/
theorem del_represents (hl : Exact hash cmp) (h : map.Represents hash cmp e) (key : K) :
    ∃ map', map.del key = some ((found (e key)).map fun _ => (), map') ∧
      map'.Represents hash cmp (update e key none) := by
  rw [del]
  rcases find_represents hl h key with ⟨bkt, map', hfind, hv, hdel, h'⟩ | ⟨hfind, hv⟩
  · exact ⟨map', by simp only [hfind, hdel, hv, Option.map_some]; rfl, h'⟩
  · refine ⟨map, by rw [hfind, hv]; rfl, ?_⟩
    rwa [← hv, update_eq_self]

end Calls

end Map

end AlephZero
