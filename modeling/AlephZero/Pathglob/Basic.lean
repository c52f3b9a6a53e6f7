import AlephZero.Machine.Greedy
import AlephZero.Strconv

/-!
# Path globs

`pathglob.c`, with `a0_abspath` of `file.c`: a path or a pattern is split at its slashes,
and a path is matched against a pattern, component by component.

## The model

A pointer into a path is an offset, and a load behind the end of the path gives its null
byte. The value of `A0_ROOT`, or its default, is a parameter. `a0_pathglob_init` is `none`
if it writes behind the end of its array of parts. The loops of the matchers are given
fuel, and `none` says that they did not end.
-/

namespace AlephZero

/-- The byte at an offset. -/
def CString.at (s : CString) (i : ℕ) : UInt8 := s.bytes.getD i 0

/-- The bytes from an offset to another one. -/
def CString.slice (s : CString) (i j : ℕ) : List UInt8 := (s.bytes.drop i).take (j - i)

/-! ### Absolute paths -/

/-- `a0_joinpath`. -/
def joinpath (dir fil : CString) : Except Err CString :=
  if dir.bytes = [] ∨ fil.bytes = [] then .error (.sys .enoent)
  else .ok ⟨dir.bytes ++ 47 :: fil.bytes, by simp [dir.nonNull, fil.nonNull]⟩

/-- `a0_abspath`. -/
def abspath (root : CString) (rel : Option CString) : Except Err CString :=
  match rel with
  | none => .error (.sys .enoent)
  | some rel =>
    if rel.at 0 = 0 then .error (.sys .enoent)
    else if rel.at 0 = 47 then .ok rel
    else if root.at 0 = 0 then .error (.sys .enoent)
    else if root.at 0 ≠ 47 then .error (.sys .enoent)
    else joinpath root rel

/-! ### Splitting a path -/

/-- `a0_pathglob_part_type_t`. -/
inductive PartType where
  | verbatim | pattern | recursive
  deriving DecidableEq

/-- `a0_pathglob_part_t`; the data of its string is an offset. -/
structure Part where
  str : Buf
  type : PartType
  deriving DecidableEq

/-- `a0_pathglob_t`; its depth is the number of its parts. -/
structure Pathglob where
  abspath : CString
  parts : List Part
  deriving DecidableEq

/-- `A0_PATHGLOB_MAX_DEPTH`. -/
def pathglobMaxDepth : ℕ := 32

namespace Pathglob

/-- The loop of `a0_pathglob_init`, at `iter`, where the path goes on with `rest`, with the
part behind it. -/
def initLoop (path : CString) : List UInt8 → ℕ → ℕ → Bool → List Part
  | [], iter, recentSlash, hasStar =>
    [⟨⟨recentSlash + 1, iter - recentSlash - 1⟩, if hasStar then .pattern else .verbatim⟩]
  | c :: rest, iter, recentSlash, hasStar =>
    if c = 42 then initLoop path rest (iter + 1) recentSlash true
    else if c = 47 then
      let type :=
        if hasStar then
          if iter = recentSlash + 3 ∧ path.slice recentSlash (recentSlash + 3) = [47, 42, 42] then .recursive
          else .pattern
        else .verbatim
      ⟨⟨recentSlash + 1, iter - recentSlash - 1⟩, type⟩ :: initLoop path rest (iter + 1) iter hasStar
    else initLoop path rest (iter + 1) recentSlash hasStar

/-- `a0_pathglob_init`. -/
def init (root : CString) (pathPattern : Option CString) : Option (Except Err Pathglob) :=
  match pathPattern with
  | none => some (.error .badPath)
  | some pathPattern =>
    match AlephZero.abspath root (some pathPattern) with
    | .error e => some (.error e)
    | .ok path =>
      let parts := initLoop path path.bytes.tail 1 0 false
      if parts.length ≤ pathglobMaxDepth then some (.ok ⟨path, parts⟩) else none

/-! ### Matching -/

/-- The loop behind the end of the text in `a0_pathglob_pattern_match`. -/
def skipStars (path : CString) (glob : ℕ) : ℕ := glob + ((path.bytes.drop glob).takeWhile (· = 42)).length

/-- The loop of `a0_pathglob_pattern_match`. -/
def patternLoop (g r : CString) (globEnd realEnd : ℕ) : ℕ → ℕ → ℕ → Option (ℕ × ℕ) → Option Bool
  | 0, _, _, _ => none
  | fuel + 1, glob, real, star =>
    if real ≠ realEnd then
      if g.at glob = 42 then
        if glob + 1 = globEnd then some true
        else patternLoop g r globEnd realEnd fuel (glob + 1) real (some (glob + 1, real))
      else if r.at real = g.at glob then patternLoop g r globEnd realEnd fuel (glob + 1) (real + 1) star
      else star.elim (some false) fun (starG, starR) =>
        patternLoop g r globEnd realEnd fuel starG (starR + 1) (some (starG, starR + 1))
    else some (skipStars g glob = globEnd)

/-- `a0_pathglob_pattern_match`. -/
def patternMatch (g : CString) (part : Part) (r : CString) (buf : Buf) : Option Bool :=
  patternLoop g r (part.str.data + part.str.size) (buf.data + buf.size)
    (Greedy.fuel part.str.size buf.size) part.str.data buf.data none

/-- `a0_pathglob_part_match`. -/
def partMatch (g : CString) (globpart : Part) (r : CString) (buf : Buf) : Option Bool :=
  match globpart.type with
  | .verbatim => some (globpart.str.size = buf.size ∧
      g.slice globpart.str.data (globpart.str.data + buf.size) = r.slice buf.data (buf.data + buf.size))
  | .pattern => patternMatch g globpart r buf
  | .recursive => some true

/-- The loop of `a0_pathglob_match`; there is no star yet if `starG` is 0. -/
def matchLoop (glob real : Pathglob) : ℕ → ℕ → ℕ → ℕ → ℕ → Option Bool
  | 0, _, _, _, _ => none
  | fuel + 1, globIdx, realIdx, starG, starR =>
    match real.parts[realIdx]? with
    | some comp =>
      if (glob.parts[globIdx]?).map Part.type = some .recursive then
        if globIdx + 1 = glob.parts.length ∧ realIdx + 1 ≠ real.parts.length then some true
        else matchLoop glob real fuel (globIdx + 1) realIdx (globIdx + 1) realIdx
      else
        let segmentMatch :=
          match glob.parts[globIdx]? with
          | some part =>
            if realIdx + 1 ≠ real.parts.length ∨ part.type ≠ PartType.recursive then
              partMatch glob.abspath part real.abspath comp.str
            else some false
          | none => some false
        segmentMatch.bind fun segmentMatch =>
          if segmentMatch then matchLoop glob real fuel (globIdx + 1) (realIdx + 1) starG starR
          else if starG = 0 then some false
          else matchLoop glob real fuel starG (starR + 1) starG (starR + 1)
    | none => some ((glob.parts.drop globIdx).all (Part.type · = .recursive))

/-- `a0_pathglob_match`. -/
def pathMatch (root : CString) (glob : Pathglob) (path : Option CString) : Option (Except Err Bool) :=
  match init root path with
  | none => none
  | some (.error e) => some (.error e)
  | some (.ok real) =>
    (matchLoop glob real (Greedy.fuel glob.parts.length real.parts.length) 0 0 0 0).map .ok

end Pathglob

end AlephZero
