import AlephZero.Pathglob.Match

/-!
# The loads of a pattern match

`a0_pathglob_pattern_match` with its loads checked. The pattern may be loaded up to the byte that ends
its component, and the text up to its last byte.

## What is proved

* `Checked.patternLoop_eq` — no load is out of bounds: the byte behind the pattern is no star and not in
  the text, so that the loop does not go past it.
* **`Checked.patternMatch_spec`** — the match ends, loads within its bounds, and finds a text if and only
  if the stars of the pattern can be replaced so that it is that text.
-/

namespace AlephZero

namespace Pathglob

namespace Checked

/-- A load between two offsets. -/
def load (s : CString) (lo hi i : ℕ) : Except Err UInt8 := if lo ≤ i ∧ i < hi then .ok (s.at i) else .error .range

/-- The loop behind the end of the text: it loads up to the byte where it stops. -/
def skipStars (g : CString) (globEnd glob : ℕ) : Except Err ℕ :=
  if Pathglob.skipStars g glob ≤ globEnd then .ok (Pathglob.skipStars g glob) else .error .range

/-- The loop of `a0_pathglob_pattern_match`, with its loads. -/
def patternLoop (g r : CString) (globLo globEnd realLo realEnd : ℕ) :
    ℕ → ℕ → ℕ → Option (ℕ × ℕ) → Option (Except Err Bool)
  | 0, _, _, _ => none
  | fuel + 1, glob, real, star =>
    if real ≠ realEnd then
      match load g globLo (globEnd + 1) glob with
      | .error e => some (.error e)
      | .ok c =>
        if c = 42 then
          if glob + 1 = globEnd then some (.ok true)
          else patternLoop g r globLo globEnd realLo realEnd fuel (glob + 1) real (some (glob + 1, real))
        else
          match load r realLo realEnd real with
          | .error e => some (.error e)
          | .ok d =>
            if d = c then patternLoop g r globLo globEnd realLo realEnd fuel (glob + 1) (real + 1) star
            else star.elim (some (.ok false)) fun p =>
              patternLoop g r globLo globEnd realLo realEnd fuel p.1 (p.2 + 1) (some (p.1, p.2 + 1))
    else some ((skipStars g globEnd glob).map fun glob => decide (glob = globEnd))

/-- `a0_pathglob_pattern_match`, with its loads. -/
def patternMatch (g : CString) (part : Part) (r : CString) (buf : Buf) : Option (Except Err Bool) :=
  patternLoop g r part.str.data (part.str.data + part.str.size) buf.data (buf.data + buf.size)
    (Greedy.fuel part.str.size buf.size) part.str.data buf.data none

variable {g r : CString} {globLo globEnd realLo realEnd glob real : ℕ}

theorem load_eq {s : CString} {lo hi i : ℕ} (hlo : lo ≤ i) (hhi : i < hi) : load s lo hi i = .ok (s.at i) :=
  if_pos ⟨hlo, hhi⟩

/-- The stars end at the byte behind the pattern. -/
theorem skipStars_le (hle : glob ≤ globEnd) (hend : globEnd ≤ g.bytes.length) (hstop : g.at globEnd ≠ 42) :
    Pathglob.skipStars g glob ≤ globEnd := by
  rw [Pathglob.skipStars]
  by_contra hpast
  have hlt : globEnd - glob < ((g.bytes.drop glob).takeWhile (· = 42)).length := by omega
  have hstar := List.mem_takeWhile_imp (List.getElem_mem hlt)
  rw [(List.takeWhile_prefix _).getElem hlt, List.getElem_drop, decide_eq_true_iff] at hstar
  have hidx : glob + (globEnd - glob) = globEnd := by omega
  have hin : globEnd < g.bytes.length := by
    have hle := (List.takeWhile_prefix (fun c : UInt8 => decide (c = 42)) (l := g.bytes.drop glob)).length_le
    rw [List.length_drop] at hle
    omega
  rw [CString.at, List.getD_eq_getElem _ _ hin] at hstop
  simp only [hidx] at hstar
  exact hstop hstar

/-- Where the pattern and the text are in their bounds, so are the loads. -/
theorem patternLoop_eq (hg : globEnd ≤ g.bytes.length) (hr : realEnd ≤ r.bytes.length)
    (hstop : g.at globEnd = 47 ∨ g.at globEnd = 0) (hslash : 47 ∉ r.slice realLo realEnd) (fuel glob real : ℕ)
    (star : Option (ℕ × ℕ)) (hglob : globLo ≤ glob ∧ glob ≤ globEnd) (hreal : realLo ≤ real ∧ real ≤ realEnd)
    (hstar : ∀ p ∈ star, (globLo ≤ p.1 ∧ p.1 ≤ globEnd) ∧ realLo ≤ p.2 ∧ p.2 ≤ real) :
    patternLoop g r globLo globEnd realLo realEnd fuel glob real star =
      (Pathglob.patternLoop g r globEnd realEnd fuel glob real star).map .ok := by
  have hstop' : g.at globEnd ≠ 42 := by rcases hstop with h | h <;> rw [h] <;> decide
  induction fuel generalizing glob real star with
  | zero => rfl
  | succ fuel ih =>
    rw [patternLoop, Pathglob.patternLoop]
    by_cases hend : real = realEnd
    · rw [if_neg (not_not.mpr hend), if_neg (not_not.mpr hend), skipStars, if_pos (skipStars_le hglob.2 hg hstop')]
      rfl
    rw [if_pos hend, if_pos hend, load_eq hglob.1 (Nat.lt_succ_of_le hglob.2)]
    have hlt : real < realEnd := by omega
    simp only
    by_cases hs : g.at glob = 42
    · have hne : glob ≠ globEnd := by
        rintro rfl
        exact hstop' hs
      rw [if_pos hs, if_pos hs]
      by_cases hlast : glob + 1 = globEnd
      · rw [if_pos hlast, if_pos hlast]
        rfl
      · rw [if_neg hlast, if_neg hlast]
        refine ih _ _ _ ⟨by omega, by omega⟩ hreal ?_
        rintro _ ⟨⟩
        exact ⟨⟨by omega, by omega⟩, hreal.1, le_rfl⟩
    rw [if_neg hs, if_neg hs, load_eq hreal.1 hlt]
    simp only
    by_cases hhit : r.at real = g.at glob
    · -- the byte behind the pattern is not in the text
      have hne : glob ≠ globEnd := by
        rintro rfl
        rcases hstop with h | h
        · exact hslash (h ▸ hhit ▸ CString.at_mem_slice hreal.1 hlt hr)
        · exact CString.at_ne_zero (hlt.trans_le hr) (hhit.trans h)
      rw [if_pos hhit, if_pos hhit]
      refine ih _ _ _ ⟨by omega, by omega⟩ ⟨by omega, hlt⟩ fun p hp => ?_
      obtain ⟨h₁, h₂, h₃⟩ := hstar p hp
      exact ⟨h₁, h₂, by omega⟩
    · rw [if_neg hhit, if_neg hhit]
      cases star with
      | none => rfl
      | some p =>
        obtain ⟨h₁, h₂, h₃⟩ := hstar p rfl
        refine ih _ _ _ h₁ ⟨by omega, by omega⟩ ?_
        rintro _ ⟨⟩
        exact ⟨h₁, by omega, le_rfl⟩

end Checked

/-! ### Replacing the stars -/

/-- The pattern with its stars replaced by strings, one after the other. -/
def replaceStars : List UInt8 → List (List UInt8) → List UInt8
  | [], _ => []
  | c :: pattern, runs =>
    if c = 42 then runs.headD [] ++ replaceStars pattern runs.tail else c :: replaceStars pattern runs

/-- An alignment is a replacement. -/
theorem exists_replaceStars {pattern text : List UInt8} :
    (∃ runs, replaceStars pattern runs = text) ↔ Greedy.Aligned Stands pattern text := by
  induction pattern generalizing text with
  | nil =>
    rw [Greedy.aligned_nil]
    exact ⟨fun ⟨_, h⟩ => h.symm, fun h => ⟨[], h.symm⟩⟩
  | cons c pattern ih =>
    rw [Greedy.aligned_cons]
    by_cases hc : c = 42
    · constructor
      · rintro ⟨runs, rfl⟩
        rw [replaceStars, if_pos hc]
        exact ⟨_, _, rfl, .inl hc, ih.mp ⟨_, rfl⟩⟩
      · rintro ⟨run, t, rfl, -, ht⟩
        obtain ⟨runs, rfl⟩ := ih.mpr ht
        exact ⟨run :: runs, by rw [replaceStars, if_pos hc, List.headD_cons, List.tail_cons]⟩
    · constructor
      · rintro ⟨runs, rfl⟩
        rw [replaceStars, if_neg hc]
        exact ⟨[c], _, rfl, .inr rfl, ih.mp ⟨_, rfl⟩⟩
      · rintro ⟨run, t, rfl, hs | rfl, ht⟩
        · exact absurd hs hc
        · obtain ⟨runs, rfl⟩ := ih.mpr ht
          exact ⟨runs, by rw [replaceStars, if_neg hc]; rfl⟩

/-- **The match of a component** ends, loads no byte of the pattern behind the one that ends it and none
behind the text, and finds the text if and only if the stars can be replaced so that it is that. -/
theorem Checked.patternMatch_spec (g r : CString) (part : Part) (buf : Buf)
    (hpart : part.str.data + part.str.size ≤ g.bytes.length)
    (hstop : g.at (part.str.data + part.str.size) = 47 ∨ g.at (part.str.data + part.str.size) = 0)
    (hbuf : buf.data + buf.size ≤ r.bytes.length) (hslash : 47 ∉ r.slice buf.data (buf.data + buf.size)) :
    ∃ b, Checked.patternMatch g part r buf = some (.ok b) ∧ Pathglob.patternMatch g part r buf = some b ∧
      (b = true ↔ ∃ runs, replaceStars (component g part) runs = r.slice buf.data (buf.data + buf.size)) := by
  obtain ⟨b, hb, hiff⟩ := patternMatch_aligned hpart hstop hbuf hslash
  have hloads := Checked.patternLoop_eq hpart hbuf hstop hslash (Greedy.fuel part.str.size buf.size) part.str.data
    buf.data none ⟨le_refl part.str.data, by omega⟩ ⟨le_rfl, by omega⟩ (by simp)
  refine ⟨b, ?_, hb, ?_⟩
  · rw [Pathglob.patternMatch] at hb
    rw [Checked.patternMatch, hloads, hb]
    rfl
  · rw [exists_replaceStars]
    exact hiff

/-- The pattern `*ab*b` in front of a slash; its second star covers nothing at first. -/
theorem Checked.patternMatch_spec_twoStars :
    Checked.patternMatch (.ofString "/*ab*b/c") ⟨⟨1, 5⟩, .pattern⟩ (.ofString "/aabcb") ⟨1, 5⟩ = some (.ok true) ∧
      ∃ runs, replaceStars (CString.ofString "*ab*b").bytes runs = (CString.ofString "aabcb").bytes := by
  obtain ⟨b, hloads, hb, hiff⟩ := Checked.patternMatch_spec (.ofString "/*ab*b/c") (.ofString "/aabcb")
    ⟨⟨1, 5⟩, .pattern⟩ ⟨1, 5⟩ (by decide) (.inl rfl) (by decide) (by decide)
  have hmatch : Pathglob.patternMatch (.ofString "/*ab*b/c") ⟨⟨1, 5⟩, .pattern⟩ (.ofString "/aabcb") ⟨1, 5⟩ =
      some true := rfl
  rw [hmatch] at hb
  cases hb
  exact ⟨hloads, hiff.mp rfl⟩

end Pathglob

end AlephZero
