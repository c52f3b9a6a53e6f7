import AlephZero.Pathglob.Match

/-!
# Splitting a path glob

How many components `a0_pathglob_init` puts into its array, and which types it gives them.

## What is proved

* **`init_iff`** — an absolute path is split within the array, and can be put together again, if and
  only if it has at most 32 slashes. A path with more is written behind the array, by a match too.
* **`types_iff`** — the types of the components are those of their own texts if and only if none that has
  no star comes behind one that has one.
-/

namespace AlephZero

namespace Pathglob

variable {root path : CString} {glob : Pathglob} {rest : List UInt8} {iter recentSlash : ℕ} {hasStar : Bool}
  {part : Part} {parts : List Part}

/-! ### The depth -/

/-- The components, each one behind a slash. -/
def joined (glob : Pathglob) : List UInt8 := 47 :: [47].intercalate (glob.parts.map (component glob.abspath))

/-- A list is split into one part more than there are separators. -/
theorem length_splitOn (bytes : List UInt8) : (bytes.splitOn 47).length = bytes.count 47 + 1 := by
  induction bytes with
  | nil => rfl
  | cons c bytes ih =>
    rw [List.splitOn_cons_eq_if_modifyHead, List.count_cons]
    split_ifs with hc
    · rw [List.length_cons, ih]
    · rw [List.length_modifyHead, ih, Nat.add_zero]

theorem bytes_eq_cons (habs : path.at 0 = 47) : path.bytes = 47 :: path.bytes.tail := by
  cases hbytes : path.bytes with
  | nil =>
    rw [CString.at, hbytes] at habs
    cases habs
  | cons c bytes =>
    rw [CString.at, hbytes] at habs
    rw [List.tail_cons, ← habs]
    rfl

/-- An absolute path has as many components as slashes. -/
theorem length_initLoop (habs : path.at 0 = 47) :
    (initLoop path path.bytes.tail 1 0 false).length = path.bytes.count 47 := by
  have hlen := congrArg List.length (components_eq habs)
  rw [List.length_map, length_splitOn] at hlen
  rw [hlen, bytes_eq_cons habs, List.tail_cons, List.count_cons_self]

/-- Splitting an absolute path writes its components, or behind the array. -/
theorem init_absolute (root : CString) (habs : path.at 0 = 47) : init root (some path) =
    if path.bytes.count 47 ≤ pathglobMaxDepth then some (.ok ⟨path, initLoop path path.bytes.tail 1 0 false⟩)
    else none := by
  have hne : path.at 0 ≠ 0 := by
    rw [habs]
    decide
  have hpath : AlephZero.abspath root (some path) = .ok path := by
    simp only [AlephZero.abspath]
    rw [if_neg hne, if_pos habs]
  rw [init]
  simp only [hpath]
  rw [length_initLoop habs]

/-- What is asked of splitting a path: it is an error, or the components fit the array and can be put
together again; and no match writes behind the array. -/
structure SplitWithin (root path : CString) : Prop where
  init : ∃ res, Pathglob.init root (some path) = some res ∧
    ∀ glob, res = .ok glob → glob.parts.length ≤ pathglobMaxDepth ∧ joined glob = path.bytes
  pathMatch : ∀ root' pattern glob, Pathglob.init root' pattern = some (.ok glob) →
    Pathglob.pathMatch root glob (some path) ≠ none

/-- **A path is split within the array** if and only if it has at most 32 slashes. -/
theorem init_iff (root path : CString) (habs : path.at 0 = 47) :
    SplitWithin root path ↔ path.bytes.count 47 ≤ pathglobMaxDepth := by
  have hinit := init_absolute root habs
  constructor
  · rintro ⟨⟨res, hres, -⟩, -⟩
    by_contra hdeep
    rw [hinit, if_neg hdeep] at hres
    cases hres
  · intro hle
    rw [if_pos hle] at hinit
    refine ⟨⟨_, hinit, ?_⟩, ?_⟩
    · rintro glob ⟨⟩
      refine ⟨(length_initLoop habs).trans_le hle, ?_⟩
      rw [joined, components_eq habs, List.intercalate_splitOn]
      exact (bytes_eq_cons habs).symm
    · intro root' pattern glob hglob
      obtain ⟨b, hb, -⟩ := matchLoop_ends (init_spec hglob).1 (init_spec hinit).1
      rw [Pathglob.pathMatch, hinit]
      simp [hb]

theorem init_iff_two : (CString.ofString "/a/b").at 0 = 47 ∧ SplitWithin (.ofString "/r") (.ofString "/a/b") :=
  ⟨rfl, (init_iff _ _ rfl).mpr (by decide)⟩

/-- A path of 33 components. -/
def deepPath : CString := ⟨(List.replicate 33 [47, 97]).flatten, by decide⟩

/-- It is written behind the array, and so it is when it is found on disk. -/
theorem not_splitWithin :
    deepPath.at 0 = 47 ∧ init (.ofString "/r") (some deepPath) = none ∧
      (∃ glob, init (.ofString "/r") (some (.ofString "/a/**")) = some (.ok glob) ∧
        pathMatch (.ofString "/r") glob (some deepPath) = none) ∧
      ¬ SplitWithin (.ofString "/r") deepPath := by
  have hinit : init (.ofString "/r") (some deepPath) = none := by
    rw [init_absolute _ rfl, if_neg (by decide)]
  refine ⟨rfl, hinit, ⟨_, rfl, by rw [pathMatch, hinit]⟩, ?_⟩
  rintro ⟨⟨res, hres, -⟩, -⟩
  rw [hinit] at hres
  cases hres

/-! ### The types -/

/-- The type of a part that is not the last one is that of its text. -/
def TypedAlone (path : CString) (part : Part) : Prop :=
  (part.type = .recursive ↔ component path part = [42, 42]) ∧
    (part.type = .pattern ↔ component path part ≠ [42, 42] ∧ 42 ∈ component path part) ∧
    (part.type = .verbatim ↔ 42 ∉ component path part)

/-- What is asked of the types of the parts of a pattern: they depend on nothing but their texts. -/
structure OwnTypes (path : CString) (parts : List Part) : Prop where
  inner : ∀ part ∈ parts.dropLast, TypedAlone path part
  final : ∀ part ∈ parts.getLast?, part.type = .verbatim ↔ 42 ∉ component path part

/-- A component with a star is followed by such components only. -/
def StarsLast (comps : List (List UInt8)) : Prop := comps.Pairwise fun comp behind => 42 ∈ comp → 42 ∈ behind

instance (comps : List (List UInt8)) : Decidable (StarsLast comps) := inferInstanceAs (Decidable (comps.Pairwise _))

/-- Where the types are so, a component has the same type in any pattern. -/
theorem TypedAlone.type_eq {path' : CString} {part' : Part} (h : TypedAlone path part) (h' : TypedAlone path' part')
    (heq : component path part = component path' part') : part.type = part'.type := by
  rw [TypedAlone, heq] at h
  cases htype : part'.type with
  | recursive => exact h.1.mpr (h'.1.mp htype)
  | pattern => exact h.2.1.mpr (h'.2.1.mp htype)
  | verbatim => exact h.2.2.mpr (h'.2.2.mp htype)

theorem ownTypes_singleton : OwnTypes path [part] ↔ (part.type = .verbatim ↔ 42 ∉ component path part) := by
  constructor
  · exact fun h => h.final part rfl
  · intro h
    refine ⟨by simp, ?_⟩
    rintro _ ⟨⟩
    exact h

theorem ownTypes_cons (hparts : parts ≠ []) :
    OwnTypes path (part :: parts) ↔ TypedAlone path part ∧ OwnTypes path parts := by
  have hlast : (part :: parts).getLast? = parts.getLast? := List.getLast?_cons_of_ne_nil hparts
  constructor
  · rintro ⟨hinner, hfinal⟩
    rw [List.dropLast_cons_of_ne_nil hparts, List.forall_mem_cons] at hinner
    exact ⟨hinner.1, hinner.2, hlast ▸ hfinal⟩
  · rintro ⟨hpart, hinner, hfinal⟩
    refine ⟨?_, hlast ▸ hfinal⟩
    rw [List.dropLast_cons_of_ne_nil hparts, List.forall_mem_cons]
    exact ⟨hpart, hinner⟩

theorem initLoop_ne_nil : initLoop path rest iter recentSlash hasStar ≠ [] := by
  induction rest generalizing iter recentSlash hasStar with
  | nil => exact List.cons_ne_nil _ _
  | cons c rest ih =>
    rw [initLoop]
    by_cases hstar : c = 42
    · rw [if_pos hstar]
      exact ih
    · rw [if_neg hstar]
      by_cases hslash : c = 47
      · rw [if_pos hslash]
        exact List.cons_ne_nil _ _
      · rw [if_neg hslash]
        exact ih

/-- The type that a part gets at a slash: the flag decides on a star. -/
theorem typedAlone_iff (h : Split path (47 :: rest) iter recentSlash hasStar) (hat : path.at recentSlash = 47)
    (hstar : 42 ∈ path.slice (recentSlash + 1) iter → hasStar = true) :
    TypedAlone path ⟨⟨recentSlash + 1, iter - recentSlash - 1⟩,
        if hasStar then
          if iter = recentSlash + 3 ∧ path.slice recentSlash (recentSlash + 3) = [47, 42, 42] then .recursive
          else .pattern
        else .verbatim⟩ ↔ (hasStar = true → 42 ∈ path.slice (recentSlash + 1) iter) := by
  have hlt := h.lt
  have hle := h.le
  have hcomp : ∀ type, component path ⟨⟨recentSlash + 1, iter - recentSlash - 1⟩, type⟩ =
      path.slice (recentSlash + 1) iter := by
    intro type
    rw [component]
    congr 1
    simp only
    omega
  have hlen : (path.slice (recentSlash + 1) iter).length = iter - (recentSlash + 1) := CString.length_slice hlt hle
  -- the three bytes at the slash are those of a recursive component
  have hrec : (iter = recentSlash + 3 ∧ path.slice recentSlash (recentSlash + 3) = [47, 42, 42]) ↔
      path.slice (recentSlash + 1) iter = [42, 42] := by
    constructor
    · rintro ⟨rfl, hslice⟩
      rw [CString.slice_cons (by omega) hle] at hslice
      exact (List.cons.inj hslice).2
    · intro hslice
      rw [hslice] at hlen
      obtain rfl : iter = recentSlash + 3 := by
        simp only [List.length_cons, List.length_nil] at hlen
        omega
      rw [CString.slice_cons (by omega) hle, hat, hslice]
      exact ⟨rfl, rfl⟩
  rw [TypedAlone]
  simp only [hcomp, hrec]
  generalize path.slice (recentSlash + 1) iter = text at *
  cases hasStar with
  | false =>
    have hno : 42 ∉ text := fun hmem => by cases hstar hmem
    have hne : text ≠ [42, 42] := by
      rintro rfl
      exact hno List.mem_cons_self
    simp [hno, hne]
  | true =>
    by_cases htext : text = [42, 42]
    · simp [htext]
    · simp [htext]

/-- The flag says that a component so far, or the current one, has a star. -/
theorem initLoop_ownTypes (h : Split path rest iter recentSlash hasStar) (hat : path.at recentSlash = 47)
    (carried : Bool) (hstar : hasStar = true ↔ carried = true ∨ 42 ∈ path.slice (recentSlash + 1) iter) :
    OwnTypes path (initLoop path rest iter recentSlash hasStar) ↔
      (carried = true → ∀ comp ∈ ahead path rest iter recentSlash, 42 ∈ comp) ∧
        StarsLast (ahead path rest iter recentSlash) := by
  induction rest generalizing iter recentSlash hasStar carried with
  | nil =>
    have hlt := h.lt
    rw [initLoop, ownTypes_singleton, ahead_nil, component]
    have hend : recentSlash + 1 + (iter - recentSlash - 1) = iter := by omega
    simp only [hend, List.mem_singleton, forall_eq, StarsLast, List.pairwise_singleton, and_true]
    cases hasStar with
    | false =>
      have hno : 42 ∉ path.slice (recentSlash + 1) iter := fun hmem => by cases hstar.mpr (.inr hmem)
      have hcarried : carried ≠ true := fun hcarried => by cases hstar.mpr (.inl hcarried)
      simp [hno, hcarried]
    | true =>
      have hor := hstar.mp rfl
      simp only [if_true, reduceCtorEq, false_iff, not_not]
      exact ⟨fun hmem _ => hmem, fun hcarried => hor.elim hcarried id⟩
  | cons c rest ih =>
    rw [initLoop]
    by_cases hc : c = 42
    · have hslash : c ≠ 47 := by rw [hc]; decide
      rw [if_pos hc, h.ahead_next hslash]
      refine ih (h.next hslash true (by simp)) hat carried ?_
      rw [CString.slice_snoc h.lt h.at_iter.1, h.at_iter.2.1, hc]
      simp
    · by_cases hslash : c = 47
      · subst hslash
        have hpart := typedAlone_iff h hat fun hmem => hstar.mpr (.inr hmem)
        have hrest := ih h.slash h.at_iter.2.1 hasStar (by rw [CString.slice_self]; simp)
        rw [if_neg hc, if_pos rfl, ahead_slash, ownTypes_cons initLoop_ne_nil, hpart, hrest]
        simp only [List.forall_mem_cons, StarsLast, List.pairwise_cons, hstar]
        constructor
        · rintro ⟨hhere, hbehind, hlast⟩
          exact ⟨fun hcarried => ⟨hhere (.inl hcarried), hbehind (.inl hcarried)⟩,
            fun comp hcomp hmem => hbehind (.inr hmem) comp hcomp, hlast⟩
        · rintro ⟨hcarried, hbehind, hlast⟩
          exact ⟨fun hor => hor.elim (fun hc => (hcarried hc).1) id,
            fun hor comp hcomp => hor.elim (fun hc => (hcarried hc).2 comp hcomp) (hbehind comp hcomp), hlast⟩
      · rw [if_neg hc, if_neg hslash, h.ahead_next hslash]
        refine ih (h.next hslash hasStar fun hs => ⟨hs, hc⟩) hat carried ?_
        rw [CString.slice_snoc h.lt h.at_iter.1, h.at_iter.2.1, hstar]
        simp [Ne.symm hc]

/-- **The types are those of the texts** if and only if no component without a star follows one with a star:
the flag for a star is never cleared. -/
theorem types_iff (root path : CString) (habs : path.at 0 = 47) (hdepth : path.bytes.count 47 ≤ pathglobMaxDepth) :
    (∃ glob, init root (some path) = some (.ok glob) ∧ OwnTypes glob.abspath glob.parts) ↔
      StarsLast (path.bytes.tail.splitOn 47) := by
  have htypes := initLoop_ownTypes (Split.start habs) habs false (by rw [CString.slice_self]; simp)
  rw [ahead_self] at htypes
  rw [init_absolute root habs, if_pos hdepth]
  simpa using htypes

theorem types_iff_recursive :
    ∃ glob, init (.ofString "/r") (some (.ofString "/a/**/*b")) = some (.ok glob) ∧
      OwnTypes glob.abspath glob.parts :=
  (types_iff _ _ rfl (by decide)).mpr (by decide)

/-- The component `b` is a pattern behind `a*`, and verbatim behind `a`. -/
theorem not_ownTypes :
    init (.ofString "/r") (some (.ofString "/a*/b/c")) = some (.ok ⟨.ofString "/a*/b/c",
        [⟨⟨1, 2⟩, .pattern⟩, ⟨⟨4, 1⟩, .pattern⟩, ⟨⟨6, 1⟩, .pattern⟩]⟩) ∧
      init (.ofString "/r") (some (.ofString "/a/b/c")) = some (.ok ⟨.ofString "/a/b/c",
        [⟨⟨1, 1⟩, .verbatim⟩, ⟨⟨3, 1⟩, .verbatim⟩, ⟨⟨5, 1⟩, .verbatim⟩]⟩) ∧
      ¬ ∃ glob, init (.ofString "/r") (some (.ofString "/a*/b/c")) = some (.ok glob) ∧
        OwnTypes glob.abspath glob.parts := by
  have hinit : init (.ofString "/r") (some (.ofString "/a*/b/c")) = some (.ok ⟨.ofString "/a*/b/c",
      [⟨⟨1, 2⟩, .pattern⟩, ⟨⟨4, 1⟩, .pattern⟩, ⟨⟨6, 1⟩, .pattern⟩]⟩) := rfl
  refine ⟨hinit, rfl, ?_⟩
  rintro ⟨glob, hglob, hinner, -⟩
  rw [hinit] at hglob
  cases hglob
  exact absurd (hinner ⟨⟨4, 1⟩, .pattern⟩ (by decide)).2.2 (by decide)

end Pathglob

end AlephZero
