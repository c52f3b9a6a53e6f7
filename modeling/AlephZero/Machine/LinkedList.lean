import Mathlib.Data.List.Basic
import Mathlib.Logic.Function.Basic

/-!
# Intrusive lists

A list that is doubly linked through its nodes and closed by a head. The head has no link
back. Lists are edited by single stores of a link.

## What is proved

* `Walk.push`, `Back.push` — a node is put in front.
* `Walk.unlink`, `Back.unlink` — a node is taken out, wherever it is.
* `inverse_of_back` — the links are inverse to each other.
-/

/-- Where a link points. -/
inductive Link (ι : Type) where
  | null
  | head
  | node (i : ι)
  deriving DecidableEq

theorem Link.head_ne_node {ι : Type} (i : ι) : (Link.head : Link ι) ≠ .node i := nofun

theorem Link.node_ne_head {ι : Type} (i : ι) : (Link.node i : Link ι) ≠ .head := nofun

namespace LinkedList

variable {ι : Type} {next prev next' prev' : Link ι → Link ι} {a b : Link ι} {i j : ι} {L L' : List ι}

/-- Following `next` from `a` visits the nodes of a list and then the head. -/
def Walk (next : Link ι → Link ι) : Link ι → List ι → Prop
  | a, [] => next a = .head
  | a, i :: L => next a = .node i ∧ Walk next (.node i) L

/-- `prev` of each node of a list is what is before it, of the first one `a`. -/
def Back (prev : Link ι → Link ι) : Link ι → List ι → Prop
  | _, [] => True
  | a, i :: L => prev (.node i) = a ∧ Back prev (.node i) L

/-- A list that is closed by its head. -/
structure Ring (next prev : Link ι → Link ι) (L : List ι) : Prop where
  walk : Walk next .head L
  back : Back prev .head L
  nodup : L.Nodup

theorem Walk.congr (h : Walk next a L) (ha : next' a = next a) (hL : ∀ i ∈ L, next' (.node i) = next (.node i)) :
    Walk next' a L := by
  induction L generalizing a with
  | nil => exact ha.trans h
  | cons i L ih =>
    refine ⟨ha.trans h.1, ih h.2 (hL i List.mem_cons_self) fun j hj => ?_⟩
    exact hL j (List.mem_cons_of_mem i hj)

theorem Back.congr (h : Back prev a L) (hL : ∀ i ∈ L, prev' (.node i) = prev (.node i)) : Back prev' a L := by
  induction L generalizing a with
  | nil => trivial
  | cons i L ih =>
    refine ⟨(hL i List.mem_cons_self).trans h.1, ih h.2 fun j hj => ?_⟩
    exact hL j (List.mem_cons_of_mem i hj)

/-- A walk goes on where its first link points. -/
theorem Walk.start (h : Walk next a L) (hb : next b = next a) : Walk next b L := by
  cases L with
  | nil => exact hb.trans h
  | cons i L => exact ⟨hb.trans h.1, h.2⟩

theorem Back.push_nil (hi : prev (.node i) = .head) (hw : Walk next (.node i) L) (hne : next (.node i) = .head) :
    Back prev .head (i :: L) := by
  cases L with
  | nil => exact ⟨hi, trivial⟩
  | cons j L => cases hw.1.symm.trans hne

theorem Back.prev_mem (h : Back prev a L) (hi : i ∈ L) : prev (.node i) = a ∨ ∃ k ∈ L, prev (.node i) = .node k := by
  induction L generalizing a with
  | nil => cases hi
  | cons j L ih =>
    rcases List.mem_cons.mp hi with rfl | hi
    · exact .inl h.1
    · rcases ih h.2 hi with he | ⟨k, hk, he⟩
      · exact .inr ⟨j, List.mem_cons_self, he⟩
      · exact .inr ⟨k, List.mem_cons_of_mem j hk, he⟩

theorem Walk.next_mem (h : Walk next a L) (hi : i ∈ L) :
    next (.node i) = .head ∨ ∃ k ∈ L, next (.node i) = .node k := by
  induction L generalizing a with
  | nil => cases hi
  | cons j L ih =>
    rcases List.mem_cons.mp hi with rfl | hi
    · cases L with
      | nil => exact .inl h.2
      | cons k L => exact .inr ⟨k, by simp, h.2.1⟩
    · rcases ih h.2 hi with he | ⟨k, hk, he⟩
      · exact .inl he
      · exact .inr ⟨k, List.mem_cons_of_mem j hk, he⟩

/-- What is before a node is not among what follows it. -/
theorem Back.prev_ne (h : Back prev a L) (hi : i ∈ L) (ha : b ≠ a) (hL : ∀ j ∈ L, b ≠ .node j) :
    b ≠ prev (.node i) := by
  induction L generalizing a with
  | nil => cases hi
  | cons j L ih =>
    rcases List.mem_cons.mp hi with rfl | hi
    · rw [h.1]
      exact ha
    · exact ih h.2 hi (hL j List.mem_cons_self) fun k hk => hL k (List.mem_cons_of_mem j hk)

section Update

variable [DecidableEq ι]

theorem Walk.update (h : Walk next a L) (ha : b ≠ a) (hL : ∀ i ∈ L, b ≠ .node i) (v : Link ι) :
    Walk (Function.update next b v) a L :=
  h.congr (Function.update_of_ne ha.symm v next) fun i hi => Function.update_of_ne (hL i hi).symm v next

theorem Back.update (h : Back prev a L) (hL : ∀ i ∈ L, b ≠ .node i) (v : Link ι) :
    Back (Function.update prev b v) a L :=
  h.congr fun i hi => Function.update_of_ne (hL i hi).symm v prev

/-- The head points to a node that points to the first one. -/
theorem Walk.push (h : Walk next .head L) (hi : next (.node i) = next .head) :
    Walk (Function.update next .head (.node i)) .head (i :: L) := by
  have hw : Walk (Function.update next .head (.node i)) (.node i) L :=
    (h.start hi).update (Link.head_ne_node i) (fun j _ => Link.head_ne_node j) _
  exact ⟨Function.update_self .., hw⟩

/-- The first node points back to the new one. -/
theorem Back.push (h : Back prev .head L) (hi : prev (.node i) = .head) (hw : Walk next (.node i) L)
    (hnd : (i :: L).Nodup) (hne : next (.node i) ≠ .head) :
    Back (Function.update prev (next (.node i)) (.node i)) .head (i :: L) := by
  cases L with
  | nil => exact absurd hw hne
  | cons j L =>
    rw [hw.1]
    obtain ⟨hn, hnd⟩ := List.nodup_cons.mp hnd
    have hij : i ≠ j := fun h => hn (h ▸ List.mem_cons_self)
    refine ⟨(Function.update_of_ne (by simpa using hij) _ _).trans hi, Function.update_self .., ?_⟩
    refine h.2.update (fun k hk hjk => ?_) _
    cases hjk
    exact (List.nodup_cons.mp hnd).1 hk

/-- What is before a node points past it. -/
theorem Walk.unlink (h : Walk next a L) (hb : Back prev a L) (hi : i ∈ L) (hnd : L.Nodup) (ha : ∀ j ∈ L, a ≠ .node j) :
    Walk (Function.update next (prev (.node i)) (next (.node i))) a (L.erase i) := by
  induction L generalizing a with
  | nil => cases hi
  | cons j L ih =>
    obtain ⟨hj, hnd⟩ := List.nodup_cons.mp hnd
    have ha' : ∀ k ∈ L, a ≠ .node k := fun k hk => ha k (List.mem_cons_of_mem j hk)
    by_cases hij : j = i
    · subst hij
      rw [List.erase_cons_head, hb.1]
      have hw : Walk (Function.update next a (next (.node j))) (.node j) L :=
        h.2.update (ha j List.mem_cons_self) ha' _
      refine hw.start ?_
      rw [Function.update_self, Function.update_of_ne (ha j List.mem_cons_self).symm]
    · rw [List.erase_cons_tail (by simpa using hij)]
      have hiL : i ∈ L := (List.mem_cons.mp hi).resolve_left (Ne.symm hij)
      have hne : a ≠ prev (.node i) := hb.2.prev_ne hiL (ha j List.mem_cons_self) ha'
      refine ⟨(Function.update_of_ne hne ..).trans h.1, ih h.2 hb.2 hiL hnd fun k hk hjk => ?_⟩
      cases hjk
      exact hj hk

/-- What follows a node points back past it. -/
theorem Back.unlink (h : Walk next a L) (hb : Back prev a L) (hi : i ∈ L) (hnd : L.Nodup)
    (hne : next (.node i) ≠ .head) :
    Back (Function.update prev (next (.node i)) (prev (.node i))) a (L.erase i) := by
  induction L generalizing a with
  | nil => cases hi
  | cons j L ih =>
    obtain ⟨hj, hnd⟩ := List.nodup_cons.mp hnd
    by_cases hij : j = i
    · subst hij
      rw [List.erase_cons_head]
      cases L with
      | nil => exact absurd h.2 hne
      | cons k L =>
        rw [h.2.1, hb.1]
        refine ⟨Function.update_self .., hb.2.2.update (fun l hl hkl => ?_) _⟩
        cases hkl
        exact (List.nodup_cons.mp hnd).1 hl
    · rw [List.erase_cons_tail (by simpa using hij)]
      have hiL : i ∈ L := (List.mem_cons.mp hi).resolve_left (Ne.symm hij)
      refine ⟨?_, ih h.2 hb.2 hiL hnd⟩
      refine (Function.update_of_ne (fun hk => ?_) ..).trans hb.1
      rcases h.2.next_mem hiL with he | ⟨k, hkL, he⟩
      · exact hne he
      · cases hk.trans he
        exact hj hkL

theorem Back.unlink_last (h : Walk next a L) (hb : Back prev a L) (hi : i ∈ L) (hnd : L.Nodup)
    (hne : next (.node i) = .head) : Back prev a (L.erase i) := by
  induction L generalizing a with
  | nil => cases hi
  | cons j L ih =>
    by_cases hij : j = i
    · subst hij
      rw [List.erase_cons_head]
      cases L with
      | nil => trivial
      | cons k L => cases h.2.1.symm.trans hne
    · rw [List.erase_cons_tail (by simpa using hij)]
      have hiL : i ∈ L := (List.mem_cons.mp hi).resolve_left (Ne.symm hij)
      exact ⟨hb.1, ih h.2 hb.2 hiL (List.nodup_cons.mp hnd).2⟩

end Update

/-- The links of a list are inverse to each other. -/
def Inverse (next prev : Link ι → Link ι) (a : Link ι) (L : List ι) : Prop :=
  (∀ i ∈ L, next (prev (.node i)) = .node i) ∧
    ∀ b, (b = a ∨ ∃ i ∈ L, b = .node i) → next b ≠ .head → prev (next b) = b

theorem inverse_of_back (h : Walk next a L) (hb : Back prev a L) : Inverse next prev a L := by
  induction L generalizing a with
  | nil =>
    refine ⟨nofun, ?_⟩
    rintro b (rfl | ⟨i, hi, -⟩) hne
    · exact absurd h hne
    · cases hi
  | cons j L ih =>
    obtain ⟨hnext, hprev⟩ := ih h.2 hb.2
    constructor
    · intro i hi
      rcases List.mem_cons.mp hi with rfl | hi
      · rw [hb.1]
        exact h.1
      · exact hnext i hi
    · rintro b (rfl | ⟨i, hi, rfl⟩) hne
      · rw [h.1]
        exact hb.1
      · rcases List.mem_cons.mp hi with rfl | hi
        · exact hprev _ (.inl rfl) hne
        · exact hprev _ (.inr ⟨i, hi, rfl⟩) hne

end LinkedList
