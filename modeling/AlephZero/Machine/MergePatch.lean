import Mathlib.Data.List.Basic

/-!
# JSON Merge Patch

JSON values, and what a merge patch makes of one. The members of an object have no order,
so an object is a partial function of the names; whatever is not null and not an object,
an array for one, is patched as a whole, and is an atom here.

## What is proved

* `mergePatch_none_eq_self_iff` — a patch of nothing is the patch itself if and only if it
  has no null members.
* `NoNulls.mergePatch` — a patch leaves no null member that was not there.
* `merged_eq_folded_iff` — patches can be put on the first one instead of on the empty
  object if and only if the first one has no null members.
-/

/-- A JSON value with the member names `K`. -/
inductive Json (K α : Type*) where
  | null
  | atom (a : α)
  | object (members : K → Option (Json K α))

namespace Json

variable {K α : Type*} {t p v : Json K α} {ps : List (Json K α)}

/-- To prove something of a value, prove it of an object whose members have it. -/
@[elab_as_elim]
theorem induction {motive : Json K α → Prop} (null : motive .null) (atom : ∀ a, motive (.atom a))
    (object : ∀ members, (∀ k v, members k = some v → motive v) → motive (.object members)) (v : Json K α) :
    motive v := by
  refine Json.rec (motive_1 := motive) (motive_2 := fun o => ∀ v, o = some v → motive v) null atom ?_ ?_ ?_ v
  · exact fun members ih => object members ih
  · rintro v ⟨⟩
  · rintro v hv _ ⟨⟩
    exact hv

/-- It is null. -/
def isNull : Json K α → Bool
  | null => true
  | _ => false

/-- The members of a value, if it is an object, or of nothing. -/
def members : Option (Json K α) → K → Option (Json K α)
  | some (.object ms) => ms
  | _ => fun _ => none

/-- The object with no members. -/
def empty : Json K α := .object fun _ => none

/-! ### Patches -/

mutual

/-- What a patch makes of a value, or of nothing. -/
def mergePatch (t : Option (Json K α)) : Json K α → Json K α
  | .null => .null
  | .atom a => .atom a
  | .object ps => .object fun k => mergeMember (members t k) (ps k)

/-- What becomes of a member: null removes it. -/
def mergeMember (t : Option (Json K α)) : Option (Json K α) → Option (Json K α)
  | none => t
  | some p => if p.isNull then none else some (mergePatch t p)

end

mutual

/-- No object has a null member. -/
def NoNulls : Json K α → Prop
  | .object ms => ∀ k, NoNullAt (ms k)
  | .null | .atom _ => True

/-- A member is not null, and has no null members. -/
def NoNullAt : Option (Json K α) → Prop
  | none => True
  | some v => v.isNull = false ∧ NoNulls v

end

theorem noNulls_empty : (empty : Json K α).NoNulls := fun _ => trivial

theorem mergePatch_empty : mergePatch (some empty) p = mergePatch none p := by
  cases p <;> rfl

theorem isNull_mergePatch (t : Option (Json K α)) (p : Json K α) : (mergePatch t p).isNull = p.isNull := by
  cases p <;> rfl

/-- **A patch of nothing** is the patch itself if and only if it has no null members. -/
theorem mergePatch_none_eq_self_iff : mergePatch none p = p ↔ p.NoNulls := by
  induction p using Json.induction with
  | null => exact ⟨fun _ => trivial, fun _ => rfl⟩
  | atom a => exact ⟨fun _ => trivial, fun _ => rfl⟩
  | object ms ih =>
    have hmember : ∀ k, mergeMember none (ms k) = ms k ↔ NoNullAt (ms k) := by
      intro k
      cases hk : ms k with
      | none => exact ⟨fun _ => trivial, fun _ => rfl⟩
      | some v =>
        rw [mergeMember, NoNullAt, ← ih k v hk]
        cases v.isNull <;> simp
    rw [mergePatch, object.injEq, NoNulls, funext_iff]
    exact forall_congr' hmember

theorem NoNulls.at_members (h : t.NoNulls) (k : K) : NoNullAt (members (some t) k) := by
  cases t with
  | null | atom => trivial
  | object ms => exact h k

/-- A patch leaves no null member that was not there. -/
theorem NoNulls.mergePatch {t : Option (Json K α)} (ht : ∀ v, t = some v → v.NoNulls) : (mergePatch t p).NoNulls := by
  induction p using Json.induction generalizing t with
  | null => trivial
  | atom a => trivial
  | object ms ih =>
    intro k
    have hk : NoNullAt (members t k) := by
      cases t with
      | none => trivial
      | some v => exact (ht v rfl).at_members k
    show NoNullAt (mergeMember (members t k) (ms k))
    cases hm : ms k with
    | none => exact hk
    | some v =>
      rw [mergeMember]
      cases hv : v.isNull with
      | true => trivial
      | false =>
        refine ⟨(isNull_mergePatch _ v).trans hv, ih k v hm ?_⟩
        intro u hu
        rw [hu] at hk
        exact hk.2

/-! ### Several patches -/

/-- What patches make of a value, one after the other. -/
def patched (t : Json K α) (ps : List (Json K α)) : Json K α := ps.foldl (fun t p => mergePatch (some t) p) t

/-- What patches make of the empty object. -/
def folded (ps : List (Json K α)) : Json K α := patched empty ps

/-- The first patch as it is, and what the others make of it. -/
def merged : List (Json K α) → Option (Json K α)
  | [] => none
  | p :: ps => some (patched p ps)

theorem merged_append (ps : List (Json K α)) (p : Json K α) :
    merged (ps ++ [p]) = some ((merged ps).elim p fun t => mergePatch (some t) p) := by
  cases ps with
  | nil => rfl
  | cons q ps => exact congrArg some (List.foldl_concat ..)

theorem noNulls_patched (ht : t.NoNulls) (ps : List (Json K α)) : (patched t ps).NoNulls := by
  induction ps generalizing t with
  | nil => exact ht
  | cons p ps ih =>
    apply ih
    apply NoNulls.mergePatch
    rintro _ ⟨⟩
    exact ht

/-- No null member survives. -/
theorem noNulls_folded (ps : List (Json K α)) : (folded ps).NoNulls := noNulls_patched noNulls_empty ps

/-- **The first patch** can be taken as it is, in front of any others, if and only if it has
no null members. -/
theorem merged_eq_folded_iff : (∀ k < ps.length, merged (ps.take (k + 1)) = some (folded (ps.take (k + 1)))) ↔
    ∀ p, ps.head? = some p → p.NoNulls := by
  cases ps with
  | nil => exact ⟨fun _ p hp => (by cases hp), fun _ k hk => absurd hk (Nat.not_lt_zero k)⟩
  | cons p ps =>
    have hfirst : folded [p] = mergePatch none p := mergePatch_empty
    constructor
    · rintro hall _ ⟨⟩
      have hone := hall 0 (Nat.succ_pos _)
      rw [List.take_succ_cons, List.take_zero, hfirst, merged, Option.some.injEq] at hone
      exact mergePatch_none_eq_self_iff.mp hone.symm
    · intro hno k _
      have hp : mergePatch (some empty) p = p :=
        mergePatch_empty.trans (mergePatch_none_eq_self_iff.mpr (hno p rfl))
      rw [List.take_succ_cons, merged, folded, patched, patched, List.foldl_cons, hp]

end Json
