import AlephZero.Machine.Bytes
import AlephZero.Machine.Stores

/-!
# Stores of words and of byte strings

Programs on a byte memory: a word is one store, and a byte string is one store for
each byte.

## What is proved

* `storeWord_wpc`, `memcpy_wpc`, `memset_wpc` — they store their range and nothing
  else, at each of their stores.
* `memset_prefix_wpc` — what `memset` leaves where it is cut off.
-/

namespace ByteMem

open StoreProg Prog

variable {m : Mem}

/-- Store a word. -/
def storeWord (a v : ℕ) : Prog Mem Unit := Prog.write fun m => m.store 8 a v

/-- Store the bytes `bs` from `a`, one after another. -/
def memcpy (a : ℕ) : List UInt8 → Prog Mem Unit
  | [] => pure ()
  | b :: bs => do
    Prog.write fun m => m.store 1 a b.toNat
    memcpy (a + 1) bs

/-- Zero `n` bytes from `a`, one after another. -/
def memset (a n : ℕ) : Prog Mem Unit := memcpy a (List.replicate n 0)

/-- Bytes are stored in parts. -/
theorem memcpy_append (a : ℕ) (bs cs : List UInt8) :
    memcpy a (bs ++ cs) = (memcpy a bs >>= fun _ => memcpy (a + bs.length) cs) := by
  induction bs generalizing a with
  | nil => rw [memcpy, pure_bind]; rfl
  | cons b bs ih =>
    rw [List.cons_append, memcpy, memcpy, bind_assoc, ih (a + 1), List.length_cons, Nat.add_assoc, Nat.add_comm 1]

/-! ### What they store -/

theorem storeWord_wpc {a v : ℕ} :
    (storeWord a v).wpc (fun t => Mem.SameOutside a 8 m t)
      (fun _ t => Mem.SameOutside a 8 m t ∧ t.At a (leBytes 8 v)) m := by
  have h : Mem.SameOutside a 8 m (m.store 8 a v) := Mem.sameOutside_store le_rfl le_rfl
  exact wpc_write.mpr ⟨h, h, by rw [Mem.At, length_leBytes, Mem.loadBytes_store_self]⟩

/-- `memcpy` stores its bytes, and at each store has touched nothing else. -/
theorem memcpy_wpc {a : ℕ} {bs : List UInt8} :
    (memcpy a bs).wpc (fun t => Mem.SameOutside a bs.length m t)
      (fun _ t => Mem.SameOutside a bs.length m t ∧ t.loadBytes a bs.length = bs) m := by
  induction bs generalizing a m with
  | nil => simp [memcpy, Mem.SameOutside.refl, ← List.length_eq_zero_iff]
  | cons b bs ih =>
    have h₁ : Mem.SameOutside a (b :: bs).length m (m.store 1 a b.toNat) :=
      Mem.sameOutside_store le_rfl (by simp)
    simp only [memcpy, wpc_bind, wpc_write]
    refine ⟨h₁, wpc_mono ih (fun t ht => ?_) fun _ t ht => ?_⟩
    · exact h₁.trans (ht.mono (by omega) (by simp; omega))
    · refine ⟨h₁.trans (ht.1.mono (by omega) (by simp; omega)), ?_⟩
      rw [List.length_cons, Mem.loadBytes_succ, ht.1.loadBytes (by omega), ht.2,
        Mem.loadBytes_store_one]
      rfl

/-- While `memcpy` runs, a byte is as it was or one of those to store. -/
theorem memcpy_mem_wpc {a : ℕ} {bs : List UInt8} :
    (memcpy a bs).wpc (fun t => ∀ x, t x = m x ∨ t x ∈ bs) (fun _ t => ∀ x, t x = m x ∨ t x ∈ bs)
      m := by
  induction bs generalizing a m with
  | nil => simp [memcpy]
  | cons b bs ih =>
    have h₁ : ∀ x, m.store 1 a b.toNat x = m x ∨ m.store 1 a b.toNat x ∈ b :: bs := by
      intro x
      by_cases hx : x = a
      · subst hx
        have hb := Mem.loadBytes_store_one (m := m) (a := x) (b := b)
        refine .inr (List.mem_cons.mpr (.inl ?_))
        simpa [Mem.loadBytes] using hb
      · exact .inl (Mem.store_of_disjoint (by omega))
    have step : ∀ t : Mem, (∀ x, t x = m.store 1 a b.toNat x ∨ t x ∈ bs) →
        ∀ x, t x = m x ∨ t x ∈ b :: bs := fun t ht x => by
      rcases ht x with hx | hx
      · rw [hx]; exact h₁ x
      · exact .inr (List.mem_cons_of_mem _ hx)
    simp only [memcpy, wpc_bind, wpc_write]
    exact ⟨h₁, wpc_mono ih (fun t ht => step t ht) fun _ t ht => step t ht⟩

theorem memset_wpc {a k : ℕ} :
    (memset a k).wpc (fun t => Mem.SameOutside a k m t)
      (fun _ t => Mem.SameOutside a k m t ∧ t.loadBytes a k = List.replicate k 0) m := by
  have h : (memset a k).wpc _ _ m := memcpy_wpc
  rwa [List.length_replicate] at h

/-- While `memset` runs, the first bytes have been zeroed. -/
theorem memset_prefix_wpc {a n : ℕ} :
    (memset a n).wpc (fun t => ∃ k, 0 < k ∧ k ≤ n ∧ ∀ x, t x = if a ≤ x ∧ x < a + k then 0 else m x)
      (fun _ t => ∀ x, t x = if a ≤ x ∧ x < a + n then 0 else m x) m := by
  have hfirst : ∀ x, m.store 1 a (0 : UInt8).toNat x = if a ≤ x ∧ x < a + 1 then 0 else m x :=
    fun _ => Mem.store_zero
  induction n generalizing a m with
  | zero =>
    simp only [memset, List.replicate_zero, memcpy, wpc_pure]
    intro x
    rw [if_neg (by omega)]
  | succ n ih =>
    have hrest : ∀ k (t : Mem), (∀ x, t x = if a + 1 ≤ x ∧ x < a + 1 + k then 0
        else m.store 1 a (0 : UInt8).toNat x) → ∀ x, t x = if a ≤ x ∧ x < a + (k + 1) then 0 else m x := by
      intro k t ht x
      rw [ht x, hfirst x]
      split_ifs <;> first | rfl | omega
    simp only [memset, List.replicate_succ, memcpy, wpc_bind, wpc_write]
    refine ⟨⟨1, by omega, by omega, hfirst⟩, wpc_mono (ih fun _ => Mem.store_zero) ?_ fun _ t ht => hrest n t ht⟩
    rintro t ⟨k, hk, hle, ht⟩
    exact ⟨k + 1, by omega, by omega, hrest k t ht⟩

/-- It can be cut off after its first store, and after its last one. -/
theorem memset_crash_first {a n : ℕ} (h : 0 < n) : (memset a n).Crash m (m.store 1 a 0) := by
  obtain ⟨n, rfl⟩ : ∃ k, n = k + 1 := ⟨n - 1, by omega⟩
  exact crash_bind_left crash_write

theorem memset_crash_exec {a n : ℕ} : (memset a n).Crash m ((memset a n).exec m) := by
  rw [memset]
  induction List.replicate n (0 : UInt8) generalizing a m with
  | nil => exact .inl rfl
  | cons b bs ih => exact crash_bind_right crash_write ih

end ByteMem
