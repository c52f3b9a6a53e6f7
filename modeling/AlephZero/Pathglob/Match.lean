import AlephZero.Pathglob.Basic
import Mathlib.Data.List.TakeDrop

/-!
# What a path glob matches

A path that is split has its components between its slashes. A pattern and a path match
if the components of the pattern can be aligned with those of the path.

## What is proved

* `init_spec` — what the components of a path or a pattern are, and that only a component
  without a star is verbatim.
* `patternMatch_eq`, `partMatch_eq` — what a component matches.
* **`pathMatch_iff`** — a match ends, and is found exactly if there is an alignment.
-/

namespace AlephZero

variable {s g r : CString} {i j k : ℕ}

/-! ### Offsets into a path -/

namespace CString

theorem at_ne_zero (hi : i < s.bytes.length) : s.at i ≠ 0 := by
  rw [CString.at, List.getD_eq_getElem _ _ hi]
  intro h
  exact s.nonNull (h ▸ List.getElem_mem hi)

theorem slice_self : s.slice i i = [] := by simp [slice]

theorem slice_cons (hij : i < j) (hj : j ≤ s.bytes.length) : s.slice i j = s.at i :: s.slice (i + 1) j := by
  have hi : i < s.bytes.length := hij.trans_le hj
  rw [slice, slice, List.drop_eq_getElem_cons hi, show j - i = j - (i + 1) + 1 by omega, List.take_succ_cons,
    CString.at, List.getD_eq_getElem _ _ hi]

theorem slice_snoc (hij : i ≤ j) (hj : j < s.bytes.length) : s.slice i (j + 1) = s.slice i j ++ [s.at j] := by
  induction h : j - i generalizing i with
  | zero =>
    obtain rfl : i = j := by omega
    rw [slice_cons (by omega) hj, slice_self, slice_self, List.nil_append]
  | succ n ih =>
    rw [slice_cons (by omega) hj, slice_cons (by omega) hj.le, ih (by omega) (by omega), List.cons_append]

theorem tail_slice (hij : i < j) (hj : j ≤ s.bytes.length) : (s.slice i j).tail = s.slice (i + 1) j := by
  rw [slice_cons hij hj, List.tail_cons]

theorem at_mem_slice (hij : i ≤ j) (hjk : j < k) (hk : k ≤ s.bytes.length) : s.at j ∈ s.slice i k := by
  induction h : j - i generalizing i with
  | zero =>
    obtain rfl : i = j := by omega
    rw [slice_cons hjk hk]
    exact List.mem_cons_self
  | succ n ih =>
    rw [slice_cons (by omega) hk]
    exact List.mem_cons_of_mem _ (ih (by omega) (by omega))

theorem length_slice (hij : i ≤ j) (hj : j ≤ s.bytes.length) : (s.slice i j).length = j - i := by
  rw [slice, List.length_take, List.length_drop]
  omega

end CString

/-! ### The components -/

namespace Pathglob

/-- The string of a part. -/
def component (path : CString) (part : Part) : List UInt8 :=
  path.slice part.str.data (part.str.data + part.str.size)

/-- A part of a path: it ends at a slash or at the end of the path, there is no slash in it,
and no star if it is verbatim. -/
structure PartOf (path : CString) (part : Part) : Prop where
  bound : part.str.data + part.str.size ≤ path.bytes.length
  noSlash : 47 ∉ component path part
  stop : path.at (part.str.data + part.str.size) = 47 ∨ path.at (part.str.data + part.str.size) = 0
  verbatim : part.type = .verbatim → 42 ∉ component path part

/-- What the loop of `a0_pathglob_init` has seen. -/
structure Split (path : CString) (rest : List UInt8) (iter recentSlash : ℕ) (hasStar : Bool) : Prop where
  rest : rest = path.bytes.drop iter
  lt : recentSlash < iter
  le : iter ≤ path.bytes.length
  noSlash : 47 ∉ path.slice (recentSlash + 1) iter
  noStar : hasStar = false → 42 ∉ path.slice (recentSlash + 1) iter

variable {path root : CString} {rest : List UInt8} {c : UInt8} {iter recentSlash : ℕ} {hasStar : Bool}
  {type : PartType} {part : Part} {glob real : Pathglob}

theorem Split.at_iter (h : Split path (c :: rest) iter recentSlash hasStar) :
    iter < path.bytes.length ∧ path.at iter = c ∧ rest = path.bytes.drop (iter + 1) := by
  have hlt : iter < path.bytes.length := by
    by_contra hle
    have hrest := h.rest
    rw [List.drop_eq_nil_of_le (by omega)] at hrest
    cases hrest
  have hrest := h.rest
  rw [List.drop_eq_getElem_cons hlt] at hrest
  injection hrest with hc hr
  exact ⟨hlt, by rw [CString.at, List.getD_eq_getElem _ _ hlt, hc], hr⟩

/-- A byte that is not a slash goes to the current part. -/
theorem Split.next (h : Split path (c :: rest) iter recentSlash hasStar) (hc : c ≠ 47) (hasStar' : Bool)
    (hstar : hasStar' = false → hasStar = false ∧ c ≠ 42) : Split path rest (iter + 1) recentSlash hasStar' := by
  obtain ⟨hlt, hat, hrest⟩ := h.at_iter
  have hslice := CString.slice_snoc h.lt hlt
  rw [hat] at hslice
  refine ⟨hrest, h.lt.trans (Nat.lt_succ_self _), hlt, ?_, fun hs => ?_⟩
  · rw [Nat.succ_eq_add_one] at hslice
    simpa [hslice, hc.symm] using h.noSlash
  · obtain ⟨hs, hc⟩ := hstar hs
    rw [Nat.succ_eq_add_one] at hslice
    simpa [hslice, hc.symm] using h.noStar hs

/-- The part that ends at `iter`. -/
theorem Split.partOf (h : Split path rest iter recentSlash hasStar)
    (hstop : path.at iter = 47 ∨ path.at iter = 0) (htype : type = .verbatim → hasStar = false) :
    PartOf path ⟨⟨recentSlash + 1, iter - recentSlash - 1⟩, type⟩ ∧
      component path ⟨⟨recentSlash + 1, iter - recentSlash - 1⟩, type⟩ = path.slice (recentSlash + 1) iter := by
  have hlt := h.lt
  have hend : recentSlash + 1 + (iter - recentSlash - 1) = iter := by omega
  have hcomp : component path ⟨⟨recentSlash + 1, iter - recentSlash - 1⟩, type⟩ =
      path.slice (recentSlash + 1) iter := by
    rw [component, hend]
  refine ⟨⟨?_, ?_, ?_, fun hv => ?_⟩, hcomp⟩
  · rw [hend]; exact h.le
  · rw [hcomp]; exact h.noSlash
  · rw [hend]; exact hstop
  · rw [hcomp]; exact h.noStar (htype hv)

/-- The components that are still to come, where the first one has begun. -/
def ahead (path : CString) (rest : List UInt8) (iter recentSlash : ℕ) : List (List UInt8) :=
  (rest.splitOn 47).modifyHead (path.slice (recentSlash + 1) iter ++ ·)

theorem ahead_nil : ahead path [] iter recentSlash = [path.slice (recentSlash + 1) iter] := by simp [ahead]

theorem ahead_self : ahead path rest (iter + 1) iter = rest.splitOn 47 := by
  rw [ahead, CString.slice_self]
  exact congrFun List.modifyHead_id _

theorem Split.ahead_next (h : Split path (c :: rest) iter recentSlash hasStar) (hc : c ≠ 47) :
    ahead path (c :: rest) iter recentSlash = ahead path rest (iter + 1) recentSlash := by
  have hat := h.at_iter
  have hne : (c == 47) = false := by simpa using hc
  rw [ahead, ahead, List.splitOn_cons_eq_if_modifyHead, hne, CString.slice_snoc h.lt hat.1, hat.2.1]
  simp [List.modifyHead_modifyHead, Function.comp_def]

theorem ahead_slash : ahead path (47 :: rest) iter recentSlash =
    path.slice (recentSlash + 1) iter :: ahead path rest (iter + 1) iter := by
  rw [ahead_self, ahead, List.splitOn_cons_eq_if_modifyHead]
  simp

theorem Split.slash (h : Split path (47 :: rest) iter recentSlash hasStar) :
    Split path rest (iter + 1) iter hasStar := by
  have hat := h.at_iter
  refine ⟨hat.2.2, Nat.lt_succ_self _, hat.1, ?_, fun _ => ?_⟩ <;> rw [CString.slice_self] <;> simp

/-- What the loop of `a0_pathglob_init` gives. -/
theorem initLoop_spec (h : Split path rest iter recentSlash hasStar) :
    (∀ part ∈ initLoop path rest iter recentSlash hasStar, PartOf path part) ∧
      (initLoop path rest iter recentSlash hasStar).map (component path) = ahead path rest iter recentSlash := by
  induction rest generalizing iter recentSlash hasStar with
  | nil =>
    have hlen : path.bytes.length ≤ iter := by
      have hrest := h.rest
      rwa [eq_comm, List.drop_eq_nil_iff] at hrest
    have htype : (if hasStar then .pattern else .verbatim) = PartType.verbatim → hasStar = false := by
      cases hasStar <;> simp
    have hpart := h.partOf (.inr (by rw [CString.at, List.getD_eq_default _ _ hlen])) htype
    rw [initLoop]
    refine ⟨by simpa using hpart.1, ?_⟩
    rw [List.map_singleton, hpart.2, ahead_nil]
  | cons c rest ih =>
    rw [initLoop]
    by_cases hstar : c = 42
    · have hslash : c ≠ 47 := by rw [hstar]; decide
      rw [if_pos hstar, h.ahead_next hslash]
      exact ih (h.next hslash true (by simp))
    · by_cases hslash : c = 47
      · subst hslash
        obtain ⟨hparts, hcomps⟩ := ih h.slash
        have htype : (if hasStar then
            if iter = recentSlash + 3 ∧ path.slice recentSlash (recentSlash + 3) = [47, 42, 42] then .recursive
            else .pattern else .verbatim) = PartType.verbatim → hasStar = false := by
          cases hasStar
          · simp
          · rw [if_pos rfl]
            split_ifs <;> simp
        have hp := h.partOf (.inl h.at_iter.2.1) htype
        rw [if_neg hstar, if_pos rfl]
        refine ⟨List.forall_mem_cons.mpr ⟨hp.1, hparts⟩, ?_⟩
        rw [List.map_cons, hp.2, hcomps, ahead_slash]
      · rw [if_neg hstar, if_neg hslash, h.ahead_next hslash]
        exact ih (h.next hslash hasStar fun hs => ⟨hs, hstar⟩)

theorem abspath_ok {rel : Option CString} (h : AlephZero.abspath root rel = .ok path) :
    path.at 0 = 47 := by
  cases rel with
  | none => cases h
  | some rel =>
    simp only [AlephZero.abspath] at h
    split_ifs at h with h₀ h₁ h₂ h₃
    · cases h; exact h₁
    · unfold joinpath at h
      split_ifs at h with hne
      cases h
      have hroot : root.bytes ≠ [] := fun he => hne (.inl he)
      obtain ⟨b, bs, hb⟩ := List.exists_cons_of_ne_nil hroot
      rw [not_ne_iff] at h₃
      refine Eq.trans ?_ h₃
      simp [CString.at, hb]

/-- The loop starts behind the first slash. -/
theorem Split.start (h : path.at 0 = 47) : Split path path.bytes.tail 1 0 false := by
  have hpos : 0 < path.bytes.length := by
    by_contra hnil
    rw [CString.at, List.getD_eq_default _ _ (by omega)] at h
    cases h
  refine ⟨List.drop_one.symm, by omega, hpos, ?_, fun _ => ?_⟩ <;> rw [CString.slice_self] <;> simp

/-- The components of an absolute path are what is between its slashes. -/
theorem components_eq (h : path.at 0 = 47) :
    (initLoop path path.bytes.tail 1 0 false).map (component path) = path.bytes.tail.splitOn 47 := by
  rw [(initLoop_spec (.start h)).2, ahead_self]

/-- **A path that is split**: each part is one of the path, and the components are what is
between its slashes. -/
theorem init_spec {pathPattern : Option CString} (h : init root pathPattern = some (.ok glob)) :
    (∀ part ∈ glob.parts, PartOf glob.abspath part) ∧
      glob.parts.map (component glob.abspath) = glob.abspath.bytes.tail.splitOn 47 ∧
      glob.parts.length ≤ pathglobMaxDepth := by
  cases pathPattern with
  | none => cases h
  | some pathPattern =>
    rw [init] at h
    cases hp : AlephZero.abspath root (some pathPattern) with
    | error e => rw [hp] at h; cases h
    | ok path =>
      rw [hp] at h
      simp only at h
      split_ifs at h with hlen
      cases h
      have hat := abspath_ok hp
      exact ⟨(initLoop_spec (.start hat)).1, components_eq hat, hlen⟩

/-! ### Matching a component -/

/-- An element of a pattern covers what a star can be replaced by, or itself. -/
def Stands (c : UInt8) (run : List UInt8) : Prop := c = 42 ∨ run = [c]

/-- What a component of a pattern matches. -/
def ComponentMatches (pattern comp : List UInt8) : Prop :=
  if 42 ∈ pattern then Greedy.Aligned Stands pattern comp else comp = pattern

/-- The greedy match of bytes. -/
def isStar (c : UInt8) : Bool := c == 42

theorem stands_eq : Stands = Greedy.Covers isStar fun c a => a == c := by
  funext c run
  simp only [Stands, Greedy.Covers, isStar, beq_iff_eq, eq_iff_iff]
  constructor
  · rintro (h | rfl)
    · exact .inl h
    · exact .inr ⟨c, rfl, rfl⟩
  · rintro (h | ⟨a, rfl, rfl⟩)
    · exact .inl h
    · exact .inr rfl

/-- Without a star, a pattern covers itself only. -/
theorem aligned_verbatim {pattern comp : List UInt8} (h : 42 ∉ pattern) :
    Greedy.Aligned Stands pattern comp ↔ comp = pattern := by
  induction pattern generalizing comp with
  | nil => rw [Greedy.aligned_nil]
  | cons c pattern ih =>
    obtain ⟨hc, hp⟩ := not_or.mp (fun hm => h (List.mem_cons.mpr hm))
    rw [Greedy.aligned_cons]
    constructor
    · rintro ⟨run, t, rfl, hs | rfl, ht⟩
      · exact absurd hs.symm hc
      · rw [(ih hp).mp ht, List.singleton_append]
    · rintro rfl
      exact ⟨[c], pattern, rfl, .inr rfl, (ih hp).mpr rfl⟩

theorem componentMatches_iff {pattern comp : List UInt8} :
    ComponentMatches pattern comp ↔ Greedy.Aligned Stands pattern comp := by
  unfold ComponentMatches
  split_ifs with h
  · rfl
  · rw [aligned_verbatim h]

/-- The bytes that are skipped at the end of a match are all that is left of the pattern. -/
theorem skipStars_eq {glob globEnd : ℕ} (hle : glob ≤ globEnd) (hend : globEnd ≤ g.bytes.length)
    (hstop : g.at globEnd ≠ 42) : skipStars g glob = globEnd ↔ (g.slice glob globEnd).all isStar = true := by
  induction hn : globEnd - glob generalizing glob with
  | zero =>
    obtain rfl : glob = globEnd := by omega
    rw [CString.slice_self, skipStars]
    refine iff_of_true ?_ rfl
    cases hd : g.bytes.drop glob with
    | nil => rfl
    | cons c cs =>
      have hc : g.at glob = c := by
        rw [CString.at, List.getD_eq_getElem?_getD, ← List.head?_drop, hd]
        rfl
      rw [List.takeWhile_cons_of_neg (by simpa [hc] using hstop)]
      rfl
  | succ n ih =>
    have hlt : glob < g.bytes.length := by omega
    have hat : g.bytes[glob] = g.at glob := by rw [CString.at, List.getD_eq_getElem _ _ hlt]
    rw [CString.slice_cons (by omega) hend, List.all_cons, Bool.and_eq_true, ← ih (by omega) (by omega)]
    simp only [skipStars, List.drop_eq_getElem_cons hlt, hat, isStar, beq_iff_eq]
    by_cases hstar : g.at glob = 42
    · rw [List.takeWhile_cons_of_pos (by simpa using hstar)]
      simp only [hstar, List.length_cons, true_and]
      omega
    · rw [List.takeWhile_cons_of_neg (by simpa using hstar)]
      simp only [hstar, List.length_nil, false_and, iff_false]
      omega

/-- The loop of `a0_pathglob_pattern_match` is a greedy match. -/
theorem patternLoop_eq {globEnd lo realEnd : ℕ} (hg : globEnd ≤ g.bytes.length) (hr : realEnd ≤ r.bytes.length)
    (hstop : g.at globEnd = 47 ∨ g.at globEnd = 0) (hslash : 47 ∉ r.slice lo realEnd) (fuel glob real : ℕ)
    (star : Option (ℕ × ℕ)) (hglob : glob ≤ globEnd) (hlo : lo ≤ real) (hreal : real ≤ realEnd)
    (hstar : ∀ p ∈ star, p.1 ≤ globEnd ∧ lo ≤ p.2 ∧ p.2 ≤ real) :
    patternLoop g r globEnd realEnd fuel glob real star =
      Greedy.loop isStar (fun c a => a == c) (fun _ => true) fuel (g.slice glob globEnd) (r.slice real realEnd)
        (star.map fun p => (g.slice p.1 globEnd, r.slice p.2 realEnd)) := by
  have hstop' : g.at globEnd ≠ 42 := by rcases hstop with h | h <;> rw [h] <;> decide
  induction fuel generalizing glob real star with
  | zero => rfl
  | succ fuel ih =>
    by_cases hend : real = realEnd
    · subst hend
      rw [CString.slice_self, Greedy.loop, patternLoop, if_neg (by simp)]
      congr 1
      rw [Bool.eq_iff_iff, decide_eq_true_iff]
      exact skipStars_eq hglob hg hstop'
    · have hlt : real < realEnd := by omega
      -- the last star covers one byte more
      have hretry : (star.elim (some false) fun p =>
            patternLoop g r globEnd realEnd fuel p.1 (p.2 + 1) (some (p.1, p.2 + 1))) =
          (star.map fun p => (g.slice p.1 globEnd, r.slice p.2 realEnd)).elim (some false) fun b =>
            Greedy.loop isStar (fun c a => a == c) (fun _ => true) fuel b.1 b.2.tail (some (b.1, b.2.tail)) := by
        cases star with
        | none => rfl
        | some p =>
          obtain ⟨h₁, h₂, h₃⟩ := hstar p rfl
          simp only [Option.elim_some, Option.map_some]
          rw [CString.tail_slice (by omega) hr]
          apply ih _ _ _ h₁ (by omega) (by omega)
          rintro _ ⟨⟩
          exact ⟨h₁, by omega, le_rfl⟩
      have hne : r.at real ≠ 47 := fun h => hslash (h ▸ CString.at_mem_slice hlo hlt hr)
      have hnz : r.at real ≠ 0 := CString.at_ne_zero (hlt.trans_le hr)
      rw [patternLoop, if_pos hend, CString.slice_cons hlt hr]
      by_cases hglobEnd : glob = globEnd
      · subst hglobEnd
        have hmiss : r.at real ≠ g.at glob := by rcases hstop with h | h <;> rw [h] <;> assumption
        rw [if_neg hstop', if_neg hmiss, CString.slice_self, Greedy.loop]
        exact hretry
      · have hlt' : glob < globEnd := by omega
        rw [CString.slice_cons hlt' hg, Greedy.loop]
        by_cases hs : g.at glob = 42
        · have hnil : ((g.slice (glob + 1) globEnd).isEmpty && true) = decide (glob + 1 = globEnd) := by
            rw [Bool.and_true, Bool.eq_iff_iff, List.isEmpty_iff_length_eq_zero,
              CString.length_slice hlt' hg, decide_eq_true_iff]
            omega
          have hiss : isStar 42 = true := rfl
          simp only [hs, ↓reduceIte, hnil, decide_eq_true_eq, hiss]
          split_ifs with hlast
          · rfl
          · rw [← CString.slice_cons hlt hr]
            apply ih _ _ _ hlt' hlo hreal
            rintro _ ⟨⟩
            exact ⟨hlt', hlo, le_rfl⟩
        · have hiss : isStar (g.at glob) = false := beq_eq_false_iff_ne.mpr hs
          simp only [hs, ↓reduceIte, hiss, Bool.false_eq_true, beq_iff_eq]
          split_ifs with hhit
          · apply ih _ _ _ hlt' (by omega) hlt
            intro p hp
            obtain ⟨h₁, h₂, h₃⟩ := hstar p hp
            exact ⟨h₁, h₂, by omega⟩
          · exact hretry

variable {part comp : Part}

/-- A component with its star, in front of a slash or a null byte. -/
theorem patternMatch_aligned {buf : Buf} (hpart : part.str.data + part.str.size ≤ g.bytes.length)
    (hstop : g.at (part.str.data + part.str.size) = 47 ∨ g.at (part.str.data + part.str.size) = 0)
    (hbuf : buf.data + buf.size ≤ r.bytes.length) (hslash : 47 ∉ r.slice buf.data (buf.data + buf.size)) :
    ∃ b, patternMatch g part r buf = some b ∧
      (b = true ↔ Greedy.Aligned Stands (component g part) (r.slice buf.data (buf.data + buf.size))) := by
  have heq := patternLoop_eq hpart hbuf hstop hslash (Greedy.fuel part.str.size buf.size)
    part.str.data buf.data none (by omega) le_rfl (by omega) (by simp)
  obtain ⟨b, hb, hiff⟩ := Greedy.loop_eq isStar (fun c a => a == c) (fun _ => true) (component g part)
    (r.slice buf.data (buf.data + buf.size))
  rw [component, CString.length_slice (by omega) hpart, CString.length_slice (by omega) hbuf] at hb
  simp only [Nat.add_sub_cancel_left] at hb
  refine ⟨b, heq.trans hb, ?_⟩
  rw [stands_eq]
  exact hiff

theorem patternMatch_eq (hp : PartOf g part) (hc : PartOf r comp) :
    ∃ b, patternMatch g part r comp.str = some b ∧
      (b = true ↔ ComponentMatches (component g part) (component r comp)) := by
  rw [componentMatches_iff]
  exact patternMatch_aligned hp.bound hp.stop hc.bound hc.noSlash

/-- A component that is not recursive. -/
theorem partMatch_eq (hp : PartOf g part) (hc : PartOf r comp) (htype : part.type ≠ .recursive) :
    ∃ b, partMatch g part r comp.str = some b ∧
      (b = true ↔ ComponentMatches (component g part) (component r comp)) := by
  cases ht : part.type with
  | recursive => exact absurd ht htype
  | pattern =>
    rw [partMatch, ht]
    exact patternMatch_eq hp hc
  | verbatim =>
    rw [partMatch, ht]
    refine ⟨_, rfl, ?_⟩
    rw [decide_eq_true_iff, componentMatches_iff, aligned_verbatim (hp.verbatim ht), component, component]
    constructor
    · rintro ⟨hsize, heq⟩
      rw [hsize, heq]
    · intro heq
      have hsize : part.str.size = comp.str.size := by
        have hlen := congrArg List.length heq
        rw [CString.length_slice (by omega) hp.bound, CString.length_slice (by omega) hc.bound] at hlen
        omega
      exact ⟨hsize, by rw [heq, ← hsize]⟩

/-! ### Matching a path -/

/-- A part that covers any number of components. -/
def isRecursive (part : Part) : Bool := part.type = .recursive

/-- A part matches a component. -/
def hits (g r : CString) (part comp : Part) : Bool := partMatch g part r comp.str = some true

/-- What a part of a pattern covers. -/
def Spans (glob real : Pathglob) (part : Part) (run : List Part) : Prop :=
  part.type = .recursive ∨
    ∃ comp, run = [comp] ∧ ComponentMatches (component glob.abspath part) (component real.abspath comp)

/-- The components of the pattern can be aligned with those of the path, in order. -/
def PathMatches (glob real : Pathglob) : Prop := Greedy.Aligned (Spans glob real) glob.parts real.parts

theorem drop_of_getElem? {α : Type} {l : List α} {i : ℕ} {a : α} (h : l[i]? = some a) :
    l.drop i = a :: l.drop (i + 1) := by
  obtain ⟨hi, rfl⟩ := List.getElem?_eq_some_iff.mp h
  exact List.drop_eq_getElem_cons hi

/-- The loop of `a0_pathglob_match` is a greedy match. -/
theorem matchLoop_eq (hg : ∀ part ∈ glob.parts, PartOf glob.abspath part)
    (hr : ∀ comp ∈ real.parts, PartOf real.abspath comp) (fuel globIdx realIdx starG starR : ℕ) :
    matchLoop glob real fuel globIdx realIdx starG starR =
      Greedy.loop isRecursive (hits glob.abspath real.abspath) (fun rs => rs.length ≠ 1) fuel
        (glob.parts.drop globIdx) (real.parts.drop realIdx)
        (if starG = 0 then none else some (glob.parts.drop starG, real.parts.drop starR)) := by
  induction fuel generalizing globIdx realIdx starG starR with
  | zero => rfl
  | succ fuel ih =>
    rw [matchLoop]
    cases hcomp : real.parts[realIdx]? with
    | none =>
      rw [List.drop_eq_nil_of_le (List.getElem?_eq_none_iff.mp hcomp), Greedy.loop]
      rfl
    | some comp =>
      have hlt : realIdx < real.parts.length := (List.getElem?_eq_some_iff.mp hcomp).1
      rw [drop_of_getElem? hcomp]
      -- the last star covers one component more
      have hretry : (if starG = 0 then some false
            else matchLoop glob real fuel starG (starR + 1) starG (starR + 1)) =
          (if starG = 0 then none else some (glob.parts.drop starG, real.parts.drop starR)).elim (some false)
            fun b => Greedy.loop isRecursive (hits glob.abspath real.abspath) (fun rs => rs.length ≠ 1) fuel b.1
              b.2.tail (some (b.1, b.2.tail)) := by
        split_ifs with h
        · rfl
        · rw [ih, if_neg h, Option.elim_some, List.tail_drop]
      cases hpart : glob.parts[globIdx]? with
      | none =>
        rw [List.drop_eq_nil_of_le (List.getElem?_eq_none_iff.mp hpart), Greedy.loop]
        exact hretry
      | some part =>
        have hlt' : globIdx < glob.parts.length := (List.getElem?_eq_some_iff.mp hpart).1
        rw [drop_of_getElem? hpart, Greedy.loop]
        by_cases hrec : part.type = .recursive
        · have hlast : ((glob.parts.drop (globIdx + 1)).isEmpty &&
              decide ((comp :: real.parts.drop (realIdx + 1)).length ≠ 1)) =
              decide (globIdx + 1 = glob.parts.length ∧ realIdx + 1 ≠ real.parts.length) := by
            rw [Bool.eq_iff_iff, Bool.and_eq_true, List.isEmpty_iff_length_eq_zero, decide_eq_true_iff,
              decide_eq_true_iff, List.length_cons, List.length_drop, List.length_drop]
            omega
          have his : isRecursive part = true := by simpa [isRecursive] using hrec
          rw [hlast]
          simp only [Option.map_some, hrec, ↓reduceIte, his, decide_eq_true_eq]
          split_ifs with h
          · rfl
          · rw [ih, if_neg (by omega), drop_of_getElem? hcomp]
        · have his : isRecursive part = false := by simpa [isRecursive] using hrec
          obtain ⟨b, hb, -⟩ := partMatch_eq (hg part (List.mem_of_getElem? hpart))
            (hr comp (List.mem_of_getElem? hcomp)) hrec
          have hhit : hits glob.abspath real.abspath part comp = b := by
            cases b <;> simp [hits, hb]
          simp only [Option.map_some, Option.some.injEq, hrec, ↓reduceIte, his, Bool.false_eq_true, hhit, ne_eq,
            not_false_eq_true, or_true, hb, Option.bind_some]
          cases b with
          | true => exact ih _ _ _ _
          | false => exact hretry

/-- What a part covers is what it stands for in the greedy match. -/
theorem spans_eq (hg : ∀ part ∈ glob.parts, PartOf glob.abspath part)
    (hr : ∀ comp ∈ real.parts, PartOf real.abspath comp) :
    PathMatches glob real ↔
      Greedy.Aligned (Greedy.Covers isRecursive (hits glob.abspath real.abspath)) glob.parts real.parts := by
  have hcovers : ∀ part ∈ glob.parts, ∀ run : List Part, (∀ comp ∈ run, comp ∈ real.parts) →
      (Spans glob real part run ↔ Greedy.Covers isRecursive (hits glob.abspath real.abspath) part run) := by
    intro part hp run hrun
    by_cases hrec : part.type = .recursive
    · exact iff_of_true (.inl hrec) (.inl (by simpa [isRecursive] using hrec))
    · have his : isRecursive part = false := by simpa [isRecursive] using hrec
      simp only [Spans, Greedy.Covers, hrec, his, Bool.false_eq_true, false_or]
      refine exists_congr fun comp => and_congr_right ?_
      rintro rfl
      obtain ⟨b, hb, hiff⟩ := partMatch_eq (hg part hp) (hr comp (hrun comp (by simp))) hrec
      rw [← hiff]
      simp [hits, hb]
  exact Greedy.aligned_congr hcovers

/-- The loop of `a0_pathglob_match` ends, with the answer. -/
theorem matchLoop_ends (hg : ∀ part ∈ glob.parts, PartOf glob.abspath part)
    (hr : ∀ comp ∈ real.parts, PartOf real.abspath comp) :
    ∃ b, matchLoop glob real (Greedy.fuel glob.parts.length real.parts.length) 0 0 0 0 = some b ∧
      (b = true ↔ PathMatches glob real) := by
  obtain ⟨b, hb, hiff⟩ := Greedy.loop_eq isRecursive (hits glob.abspath real.abspath) (fun rs => rs.length ≠ 1)
    glob.parts real.parts
  have hloop := matchLoop_eq hg hr (Greedy.fuel glob.parts.length real.parts.length) 0 0 0 0
  rw [List.drop_zero, List.drop_zero, if_pos rfl, hb] at hloop
  exact ⟨b, hloop, hiff.trans (spans_eq hg hr).symm⟩

/-- **Path globs match what they say**: for any pattern and any path that can be split, a
match ends, and is found if and only if the components of the pattern can be aligned with
those of the path, where a recursive one covers any number of components, and any other
one a component that it matches, its stars replaced by any bytes. -/
theorem pathMatch_iff {root' : CString} {pathPattern path : Option CString}
    (hglob : init root pathPattern = some (.ok glob)) (hpath : init root' path = some (.ok real)) :
    ∃ b, pathMatch root' glob path = some (.ok b) ∧ (b = true ↔ PathMatches glob real) := by
  obtain ⟨hg, -, -⟩ := init_spec hglob
  obtain ⟨hr, -, -⟩ := init_spec hpath
  obtain ⟨b, hb, hiff⟩ := matchLoop_ends hg hr
  refine ⟨b, ?_, hiff⟩
  rw [pathMatch, hpath]
  simp only [hb, Option.map_some]

/-- A pattern with a recursive component, which covers two components here. -/
theorem pathMatch_iff_recursive :
    let glob : Pathglob := ⟨.ofString "/r/a*/**/c", [⟨⟨1, 1⟩, .verbatim⟩, ⟨⟨3, 2⟩, .pattern⟩,
      ⟨⟨6, 2⟩, .recursive⟩, ⟨⟨9, 1⟩, .pattern⟩]⟩
    let real : Pathglob := ⟨.ofString "/r/ab/x/y/c", [⟨⟨1, 1⟩, .verbatim⟩, ⟨⟨3, 2⟩, .verbatim⟩,
      ⟨⟨6, 1⟩, .verbatim⟩, ⟨⟨8, 1⟩, .verbatim⟩, ⟨⟨10, 1⟩, .verbatim⟩]⟩
    pathMatch (.ofString "/r") glob (some (.ofString "/r/ab/x/y/c")) = some (.ok true) ∧ PathMatches glob real := by
  intro glob real
  have hglob : init (.ofString "/r") (some (.ofString "a*/**/c")) = some (.ok glob) := rfl
  have hpath : init (.ofString "/r") (some (.ofString "/r/ab/x/y/c")) = some (.ok real) := rfl
  have hmatch : pathMatch (.ofString "/r") glob (some (.ofString "/r/ab/x/y/c")) = some (.ok true) := rfl
  obtain ⟨b, hb, hiff⟩ := pathMatch_iff hglob hpath
  rw [hmatch] at hb
  cases hb
  exact ⟨hmatch, hiff.mp rfl⟩

end Pathglob

end AlephZero
