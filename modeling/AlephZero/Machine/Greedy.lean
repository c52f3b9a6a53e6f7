import Mathlib.Data.List.Forall2
import Mathlib.Data.List.Infix
import Mathlib.Tactic.Linarith

/-!
# Greedy matching with one way back

A pattern is a list of elements, some of which are stars. A star covers any run of the
text, and any other element one item that it hits. The greedy match goes through pattern
and text once, lets a star cover nothing at first, and keeps the last star that it has
met: where the match fails, that star covers one item more.

## What is proved

* `aligned_append` — what is behind elements that are not stars is matched on its own.
* `retry`, `exchange` — the last star is enough: a run that ends at it begins at a suffix of
  the text, and what an earlier star has not covered the later one can.
* **`loop_eq`** — the greedy match ends, and finds an alignment if there is one.
-/

namespace Greedy

variable {γ α : Type*}

/-- Each element of the pattern covers a run of the text, one behind the other. -/
def Aligned (covers : γ → List α → Prop) (gs : List γ) (rs : List α) : Prop :=
  ∃ runs : List (List α), runs.flatten = rs ∧ List.Forall₂ covers gs runs

/-- What an element covers. -/
def Covers (star : γ → Bool) (hit : γ → α → Bool) (g : γ) (run : List α) : Prop :=
  star g = true ∨ ∃ a, run = [a] ∧ hit g a = true

/-- The greedy match, of what is left of the pattern and of the text; `back` is where to
go on when the match fails. At a star behind which nothing comes the answer may be known
`early`. It is `none` when the fuel is used up. -/
def loop (star : γ → Bool) (hit : γ → α → Bool) (early : List α → Bool) :
    ℕ → List γ → List α → Option (List γ × List α) → Option Bool
  | 0, _, _, _ => none
  | _ + 1, gs, [], _ => some (gs.all star)
  | fuel + 1, g :: gs, r :: rs, back =>
    if star g then
      if gs.isEmpty && early (r :: rs) then some true
      else loop star hit early fuel gs (r :: rs) (some (gs, r :: rs))
    else if hit g r then loop star hit early fuel gs rs back
    else back.elim (some false) fun b => loop star hit early fuel b.1 b.2.tail (some (b.1, b.2.tail))
  | fuel + 1, [], _ :: _, back =>
    back.elim (some false) fun b => loop star hit early fuel b.1 b.2.tail (some (b.1, b.2.tail))

/-- Enough fuel for a pattern and a text of these lengths. -/
def fuel (pattern text : ℕ) : ℕ := (pattern + 2) * (text + 1) ^ 2

variable {covers : γ → List α → Prop} {star : γ → Bool} {hit : γ → α → Bool} {early : List α → Bool}
  {g : γ} {gs bg mid : List γ} {a : α} {rs br run t : List α}

/-! ### Alignments -/

theorem aligned_nil : Aligned covers [] rs ↔ rs = [] := by
  constructor
  · rintro ⟨runs, rfl, h⟩
    cases h
    rfl
  · rintro rfl
    exact ⟨[], rfl, .nil⟩

theorem aligned_cons : Aligned covers (g :: gs) rs ↔
    ∃ run t, rs = run ++ t ∧ covers g run ∧ Aligned covers gs t := by
  constructor
  · rintro ⟨runs, rfl, h⟩
    cases h with
    | cons hg hgs => exact ⟨_, _, rfl, hg, _, rfl, hgs⟩
  · rintro ⟨run, _, rfl, hg, runs, rfl, hgs⟩
    exact ⟨run :: runs, rfl, .cons hg hgs⟩

/-- Only the elements and the runs of the pattern and the text matter. -/
theorem aligned_congr {covers' : γ → List α → Prop}
    (h : ∀ g ∈ gs, ∀ run : List α, (∀ a ∈ run, a ∈ rs) → (covers g run ↔ covers' g run)) :
    Aligned covers gs rs ↔ Aligned covers' gs rs := by
  induction gs generalizing rs with
  | nil => rw [aligned_nil, aligned_nil]
  | cons g gs ih =>
    rw [aligned_cons, aligned_cons]
    refine exists_congr fun run => exists_congr fun t => and_congr_right ?_
    rintro rfl
    refine and_congr (h g (by simp) run fun a ha => by simp [ha]) (ih fun g' hg' run' hrun' => ?_)
    exact h g' (by simp [hg']) run' fun a ha => by simp [hrun' a ha]

/-- A star covers any run. -/
theorem aligned_star (hg : star g = true) :
    Aligned (Covers star hit) (g :: gs) rs ↔ ∃ t, t <:+ rs ∧ Aligned (Covers star hit) gs t := by
  rw [aligned_cons]
  constructor
  · rintro ⟨run, t, rfl, -, ht⟩
    exact ⟨t, List.suffix_append run t, ht⟩
  · rintro ⟨t, ⟨run, rfl⟩, ht⟩
    exact ⟨run, t, rfl, .inl hg, ht⟩

/-- Any other element covers one item. -/
theorem aligned_literal (hg : star g = false) :
    Aligned (Covers star hit) (g :: gs) rs ↔
      ∃ a t, rs = a :: t ∧ hit g a = true ∧ Aligned (Covers star hit) gs t := by
  rw [aligned_cons]
  constructor
  · rintro ⟨run, t, rfl, hc | ⟨a, rfl, ha⟩, ht⟩
    · rw [hg] at hc; cases hc
    · exact ⟨a, t, rfl, ha, ht⟩
  · rintro ⟨a, t, rfl, ha, ht⟩
    exact ⟨[a], t, rfl, .inr ⟨a, rfl, ha⟩, ht⟩

/-- Only stars cover nothing. -/
theorem aligned_empty : Aligned (Covers star hit) gs [] ↔ gs.all star = true := by
  induction gs with
  | nil => simp [aligned_nil]
  | cons g gs ih =>
    cases hg : star g with
    | true => rw [aligned_star hg, List.all_cons, hg, Bool.true_and, ← ih]; simp
    | false => rw [aligned_literal hg, List.all_cons, hg, Bool.false_and]; simp

/-! ### The last star -/

/-- An element that is not a star hits an item. -/
def Hits (star : γ → Bool) (hit : γ → α → Bool) (g : γ) (a : α) : Prop := star g = false ∧ hit g a = true

/-- What is behind elements that are not stars is matched on its own. -/
theorem aligned_append (h : List.Forall₂ (Hits star hit) mid run) :
    Aligned (Covers star hit) (mid ++ gs) (run ++ rs) ↔ Aligned (Covers star hit) gs rs := by
  induction h with
  | nil => rfl
  | cons hg _ ih =>
    rw [List.cons_append, aligned_literal hg.1, ← ih]
    constructor
    · rintro ⟨a, t, he, -, ht⟩
      cases he
      exact ht
    · exact fun ht => ⟨_, _, rfl, hg.2, ht⟩

/-- Elements that are not stars cover one item each. -/
theorem aligned_split (hmid : ∀ g ∈ mid, star g = false) (h : Aligned (Covers star hit) (mid ++ gs) t) :
    ∃ u v, t = u ++ v ∧ u.length = mid.length ∧ Aligned (Covers star hit) gs v := by
  induction mid generalizing t with
  | nil => exact ⟨[], t, rfl, rfl, h⟩
  | cons g mid ih =>
    obtain ⟨a, t, rfl, -, ht⟩ := (aligned_literal (hmid g (by simp))).mp h
    obtain ⟨u, v, rfl, hu, hv⟩ := ih (fun g hg => hmid g (List.mem_cons_of_mem _ hg)) ht
    exact ⟨a :: u, v, rfl, congrArg (· + 1) hu, hv⟩

theorem literal_of_hits (h : List.Forall₂ (Hits star hit) mid run) : ∀ g ∈ mid, star g = false := by
  induction h with
  | nil => simp
  | cons hg _ ih => exact List.forall_mem_cons.mpr ⟨hg.1, ih⟩

/-- What is matched: the rest of the text, or, behind a star, some suffix of it. -/
def Answer (star : γ → Bool) (hit : γ → α → Bool) (gs : List γ) (rs : List α) :
    Option (List γ × List α) → Prop
  | none => Aligned (Covers star hit) gs rs
  | some (bg, br) => ∃ t, t <:+ br ∧ Aligned (Covers star hit) bg t

/-- Between the way back and what is left there are only items that have been hit. -/
def Since (star : γ → Bool) (hit : γ → α → Bool) (gs : List γ) (rs : List α) :
    Option (List γ × List α) → Prop
  | none => True
  | some (bg, br) => ∃ mid run, bg = mid ++ gs ∧ br = run ++ rs ∧ List.Forall₂ (Hits star hit) mid run

/-- A later star can cover what an earlier one has not covered. -/
theorem exchange {back : Option (List γ × List α)} (hg : star g = true) (h : Since star hit (g :: gs) rs back) :
    Answer star hit gs rs (some (gs, rs)) ↔ Answer star hit (g :: gs) rs back := by
  cases back with
  | none => exact (aligned_star hg).symm
  | some b =>
    obtain ⟨mid, run, hbg, hbr, hmid⟩ := h
    rw [Answer, Answer, hbg, hbr]
    constructor
    · intro ht
      exact ⟨run ++ rs, List.suffix_rfl, (aligned_append hmid).mpr ((aligned_star hg).mpr ht)⟩
    · rintro ⟨t, hsuf, ht⟩
      obtain ⟨u, v, rfl, hu, hv⟩ := aligned_split (literal_of_hits hmid) ht
      obtain ⟨w, hw, ht⟩ := (aligned_star hg).mp hv
      -- `v` is a suffix of the same text as `rs`, and not longer
      have hlen := hsuf.length_le
      rw [List.length_append, List.length_append, ← hmid.length_eq, hu] at hlen
      have hv : v <:+ rs := List.suffix_of_suffix_length_le ((List.suffix_append u v).trans hsuf)
        (List.suffix_append run rs) (by omega)
      exact ⟨w, hw.trans hv, ht⟩

/-- Where the match fails, the last star covers one item more. -/
theorem retry (h : Since star hit gs (a :: rs) (some (bg, br)))
    (hmiss : ¬ Aligned (Covers star hit) gs (a :: rs)) :
    (Answer star hit bg br.tail (some (bg, br.tail)) ↔ Answer star hit gs (a :: rs) (some (bg, br))) ∧
      br.tail.length < br.length := by
  obtain ⟨mid, run, rfl, rfl, hmid⟩ := h
  have hne : run ++ a :: rs ≠ [] := by simp
  refine ⟨?_, by simp⟩
  simp only [Answer]
  constructor
  · rintro ⟨t, hsuf, ht⟩
    exact ⟨t, hsuf.trans (List.tail_suffix _), ht⟩
  · rintro ⟨t, hsuf, ht⟩
    obtain ⟨b, br, hbr⟩ := List.exists_cons_of_ne_nil hne
    rw [hbr] at hsuf ⊢
    rcases List.suffix_cons_iff.mp hsuf with rfl | hsuf
    · rw [← hbr, aligned_append hmid] at ht
      exact absurd ht hmiss
    · exact ⟨t, hsuf, ht⟩

/-- Where the text ends, only stars may be left. -/
theorem answer_end {back : Option (List γ × List α)} (h : Since star hit gs [] back) :
    gs.all star = true ↔ Answer star hit gs [] back := by
  have hempty : Aligned (Covers star hit) gs [] ↔ gs.all star = true := aligned_empty
  rw [← hempty]
  cases back with
  | none => rfl
  | some b =>
    obtain ⟨mid, run, hbg, hbr, hmid⟩ := h
    rw [Answer, hbg, hbr, List.append_nil]
    constructor
    · intro ht
      refine ⟨run, List.suffix_rfl, ?_⟩
      rw [← List.append_nil run]
      exact (aligned_append hmid).mpr ht
    · rintro ⟨t, hsuf, ht⟩
      obtain ⟨u, v, rfl, hu, hv⟩ := aligned_split (literal_of_hits hmid) ht
      have hlen := hsuf.length_le
      rw [List.length_append, ← hmid.length_eq, hu] at hlen
      rwa [List.eq_nil_of_length_eq_zero (by omega : v.length = 0)] at hv

/-! ### The match -/

/-- What is left to do, at most, in a text of fewer than `k` items. -/
def weight (k : ℕ) (gs : List γ) (rs : List α) : Option (List γ × List α) → ℕ
  | none => (gs.length + 1) * k ^ 2 + rs.length
  | some (bg, br) => bg.length * k ^ 2 + br.length * k + rs.length

/-- A hit makes the run since the last star longer. -/
theorem Since.next {back : Option (List γ × List α)} (h : Since star hit (g :: gs) (a :: rs) back)
    (hg : Hits star hit g a) : Since star hit gs rs back := by
  cases back with
  | none => trivial
  | some b =>
    obtain ⟨mid, run, hbg, hbr, hmid⟩ := h
    exact ⟨mid ++ [g], run ++ [a], by rw [hbg]; simp, by rw [hbr]; simp, List.rel_append hmid (.cons hg .nil)⟩

variable {k : ℕ} {back : Option (List γ × List α)}

theorem weight_star (h : Since star hit (g :: gs) rs back) (hk : rs.length < k) :
    weight k gs rs (some (gs, rs)) < weight k (g :: gs) rs back := by
  have hsq : rs.length * k + rs.length < k ^ 2 := by nlinarith
  cases back with
  | none =>
    simp only [weight, List.length_cons]
    nlinarith
  | some b =>
    obtain ⟨mid, run, hbg, -, -⟩ := h
    have hlen : gs.length + 1 ≤ b.1.length := by rw [hbg, List.length_append, List.length_cons]; omega
    have hmul := Nat.mul_le_mul_right (k ^ 2) hlen
    simp only [weight]
    nlinarith

theorem weight_hit : weight k gs rs back < weight k (g :: gs) (a :: rs) back := by
  cases back with
  | none =>
    have hmul := Nat.mul_le_mul_right (k ^ 2) (Nat.le_add_right (gs.length + 1) 1)
    simp only [weight, List.length_cons]
    omega
  | some b =>
    simp only [weight, List.length_cons]
    omega

theorem weight_retry (hlt : br.tail.length < br.length) (hk : br.length < k) :
    weight k bg br.tail (some (bg, br.tail)) < weight k gs rs (some (bg, br)) := by
  have hmul := Nat.mul_le_mul_right k hlt
  simp only [weight]
  rw [Nat.succ_mul] at hmul
  omega

/-- One match, with any fuel that is enough. -/
theorem loop_spec (fuel : ℕ) (gs : List γ) (rs : List α) (back : Option (List γ × List α))
    (h : Since star hit gs rs back) (hrs : rs.length < k) (hback : ∀ b ∈ back, b.2.length < k)
    (hfuel : weight k gs rs back < fuel) :
    ∃ b, loop star hit early fuel gs rs back = some b ∧ (b = true ↔ Answer star hit gs rs back) := by
  induction fuel generalizing gs rs back with
  | zero => omega
  | succ fuel ih =>
    -- the last star covers one item more, or there is none
    have hretry (a : α) (rs : List α) (back : Option (List γ × List α)) (h : Since star hit gs (a :: rs) back)
        (hmiss : ¬ Aligned (Covers star hit) gs (a :: rs)) (hback : ∀ b ∈ back, b.2.length < k)
        (hfuel : weight k gs (a :: rs) back < fuel + 1) :
        ∃ b, (back.elim (some false) fun b =>
            loop star hit early fuel b.1 b.2.tail (some (b.1, b.2.tail))) = some b ∧
          (b = true ↔ Answer star hit gs (a :: rs) back) := by
      cases back with
      | none => exact ⟨false, rfl, by simpa [Answer] using hmiss⟩
      | some b =>
        obtain ⟨bg, br⟩ := b
        obtain ⟨hans, hlt⟩ := retry h hmiss
        have hk : br.length < k := hback _ rfl
        have hw : weight k bg br.tail (some (bg, br.tail)) < weight k gs (a :: rs) (some (bg, br)) :=
          weight_retry hlt hk
        rw [← hans]
        apply ih
        · exact ⟨[], [], rfl, rfl, .nil⟩
        · exact hlt.trans hk
        · rintro _ ⟨⟩
          exact hlt.trans hk
        · exact Nat.lt_of_lt_of_le hw (Nat.le_of_lt_succ hfuel)
    cases rs with
    | nil => exact ⟨gs.all star, by rw [loop], answer_end h⟩
    | cons a rs =>
      cases gs with
      | nil =>
        rw [loop]
        exact hretry a rs back h (by rw [aligned_nil]; simp) hback hfuel
      | cons g gs =>
        rw [loop]
        by_cases hg : star g = true
        · rw [if_pos hg, ← exchange hg h]
          have hw := weight_star h hrs
          split_ifs with he
          · obtain ⟨hnil, -⟩ := Bool.and_eq_true_iff.mp he
            obtain rfl := List.isEmpty_iff.mp hnil
            exact ⟨true, rfl, by simp [Answer, aligned_nil]⟩
          · apply ih
            · exact ⟨[], [], rfl, rfl, .nil⟩
            · exact hrs
            · rintro _ ⟨⟩
              exact hrs
            · omega
        · rw [Bool.not_eq_true] at hg
          simp only [hg, Bool.false_eq_true, if_false]
          split_ifs with hhit
          · have hans : Answer star hit gs rs back ↔ Answer star hit (g :: gs) (a :: rs) back := by
              cases back with
              | none => exact (aligned_append (.cons ⟨hg, hhit⟩ .nil)).symm
              | some b => rfl
            have hw : weight k gs rs back < weight k (g :: gs) (a :: rs) back := weight_hit
            rw [← hans]
            apply ih
            · exact h.next ⟨hg, hhit⟩
            · rw [List.length_cons] at hrs; omega
            · exact hback
            · omega
          · refine hretry a rs back h ?_ hback hfuel
            rw [aligned_literal hg]
            rintro ⟨b, t, he, hb, -⟩
            cases he
            exact hhit hb

/-- **The greedy match** ends, and finds an alignment if there is one. -/
theorem loop_eq (star : γ → Bool) (hit : γ → α → Bool) (early : List α → Bool) (gs : List γ) (rs : List α) :
    ∃ b, loop star hit early (fuel gs.length rs.length) gs rs none = some b ∧
      (b = true ↔ Aligned (Covers star hit) gs rs) := by
  refine loop_spec (k := rs.length + 1) _ gs rs none trivial (by omega) (by simp) ?_
  have hsq : rs.length < (rs.length + 1) ^ 2 := by nlinarith
  simp only [weight, fuel]
  nlinarith

end Greedy
