import Mathlib.Data.Set.Function
import Mathlib.Order.Interval.Set.Defs
import Mathlib.Data.List.GetD
import Mathlib.Tactic.Ring

/-!
# Byte memories

A memory is a byte at every address. Numbers are kept little-endian in a run of
bytes, `load n` and `store n` for a number of `n` bytes, and byte strings with
`loadBytes` and `storeBytes`. What a reader of a memory needs to know of a store
is where it went: a load of the same bytes gives the number stored, and a load
of other bytes gives what was there.

## What is proved

* `load_store_self` and `load_store_of_disjoint` — a load after a store.
* `loadBytes_storeBytes_self` and `loadBytes_congr` — the same for byte strings.
* `load_eq_zero_iff` — when a number is zero.
* `load_congr` — a load depends on the bytes it reads and on no others; so what a
  run of stores leaves alone (`SameOutside`) is loaded as before.
-/

namespace ByteMem

/-- A memory: a byte at every address. -/
abbrev Mem := ℕ → UInt8

/-- The `n` low bytes of a number, little-endian. -/
def leBytes : ℕ → ℕ → List UInt8
  | 0, _ => []
  | n + 1, v => UInt8.ofNat v :: leBytes n (v / 256)

@[simp] theorem length_leBytes (n v : ℕ) : (leBytes n v).length = n := by
  induction n generalizing v with
  | zero => rfl
  | succ n ih => rw [leBytes, List.length_cons, ih]

namespace Mem

/-- The little-endian number in the `n` bytes from `a`. -/
def load (m : Mem) : ℕ → ℕ → ℕ
  | 0, _ => 0
  | n + 1, a => (m a).toNat + 256 * load m n (a + 1)

/-- Store the `n` low bytes of `v` from `a`, little-endian. -/
def store (m : Mem) (n a v : ℕ) : Mem :=
  fun x => if a ≤ x ∧ x < a + n then UInt8.ofNat (v / 256 ^ (x - a)) else m x

/-- The `n` bytes from `a`. -/
def loadBytes (m : Mem) (a n : ℕ) : List UInt8 := (List.range n).map fun i => m (a + i)

/-- Store the bytes `bs` from `a`. -/
def storeBytes (m : Mem) (a : ℕ) (bs : List UInt8) : Mem :=
  fun x => if a ≤ x then bs.getD (x - a) (m x) else m x

variable {m m' : Mem} {n k a b v x : ℕ} {bs : List UInt8}

/-! ### Numbers -/

theorem load_lt (m : Mem) (n a : ℕ) : m.load n a < 256 ^ n := by
  induction n generalizing a with
  | zero => simp [load]
  | succ n ih =>
    have hb : (m a).toNat < 256 := (m a).toNat_lt
    have hr := ih (a + 1)
    simp only [load, pow_succ]
    omega

theorem load_succ (m : Mem) (n a : ℕ) :
    m.load (n + 1) a = (m a).toNat + 256 * m.load n (a + 1) := rfl

theorem load_zeros (n a : ℕ) : load (fun _ => 0) n a = 0 := by
  induction n generalizing a with
  | zero => rfl
  | succ n ih => rw [load_succ, ih]; rfl

theorem load_congr (h : ∀ x, a ≤ x → x < a + n → m x = m' x) : m.load n a = m'.load n a := by
  induction n generalizing a with
  | zero => rfl
  | succ n ih =>
    simp only [load]
    rw [h a le_rfl (by omega), ih fun x hx hx' => h x (by omega) (by omega)]

theorem store_of_disjoint (h : x < a ∨ a + n ≤ x) : m.store n a v x = m x := by
  unfold store
  rw [if_neg (by omega)]

/-- A load that reads none of the bytes stored gives what was there. -/
theorem load_store_of_disjoint (h : a + k ≤ b ∨ b + n ≤ a) :
    (m.store k a v).load n b = m.load n b :=
  load_congr fun x _ _ => store_of_disjoint (by omega)

/-- A load of the bytes stored gives the number, as far as it fits. -/
theorem load_store_self : (m.store n a v).load n a = v % 256 ^ n := by
  induction n generalizing a v with
  | zero => simp [load, Nat.mod_one]
  | succ n ih =>
    have rest : (m.store (n + 1) a v).load n (a + 1) = (m.store n (a + 1) (v / 256)).load n (a + 1) := by
      refine load_congr fun x hx hx' => ?_
      unfold store
      rw [if_pos (by omega), if_pos (by omega), Nat.div_div_eq_div_mul, ← pow_succ']
      congr 4
      omega
    have first : (m.store (n + 1) a v a).toNat = v % 256 := by
      unfold store
      rw [if_pos (by omega)]
      simp
    simp only [load]
    rw [rest, first, ih, pow_succ', Nat.mod_mul]

/-- A number that fits is loaded back. -/
theorem load_store_of_lt (h : v < 256 ^ n) : (m.store n a v).load n a = v := by
  rw [load_store_self, Nat.mod_eq_of_lt h]

/-- A store of zero. -/
theorem store_zero : m.store n a 0 x = if a ≤ x ∧ x < a + n then 0 else m x := by
  unfold store
  split_ifs
  · rw [Nat.zero_div]
    rfl
  · rfl

/-- A number is zero if all of its bytes are. -/
theorem load_eq_zero_iff : m.load n a = 0 ↔ ∀ x, a ≤ x → x < a + n → m x = 0 := by
  induction n generalizing a with
  | zero =>
    refine ⟨fun _ x hx hx' => ?_, fun _ => rfl⟩
    omega
  | succ n ih =>
    have hfirst : (m a).toNat = 0 ↔ m a = 0 := UInt8.toNat_inj (b := 0)
    have hrest : 256 * m.load n (a + 1) = 0 ↔ m.load n (a + 1) = 0 := by omega
    rw [load_succ, Nat.add_eq_zero_iff, hfirst, hrest, ih]
    constructor
    · rintro ⟨hfirst, hrest⟩ x hx hx'
      rcases Nat.eq_or_lt_of_le hx with rfl | hlt
      · exact hfirst
      · exact hrest x hlt (by omega)
    · intro h
      exact ⟨h a le_rfl (by omega), fun x hx hx' => h x (by omega) (by omega)⟩

/-! ### Byte strings -/

@[simp] theorem length_loadBytes (m : Mem) (a n : ℕ) : (m.loadBytes a n).length = n := by
  simp [loadBytes]

theorem getElem_loadBytes {i : ℕ} (h : i < (m.loadBytes a n).length) :
    (m.loadBytes a n)[i] = m (a + i) := by
  simp [loadBytes]

theorem loadBytes_congr (h : ∀ x, a ≤ x → x < a + n → m x = m' x) :
    m.loadBytes a n = m'.loadBytes a n := by
  refine List.map_congr_left fun i hi => h _ (by omega) ?_
  have := List.mem_range.mp hi
  omega

theorem loadBytes_append (m : Mem) (a n k : ℕ) :
    m.loadBytes a (n + k) = m.loadBytes a n ++ m.loadBytes (a + n) k := by
  simp only [loadBytes, List.range_add, List.map_append, List.map_map]
  congr 1
  refine List.map_congr_left fun i _ => ?_
  simp [Nat.add_assoc]

theorem loadBytes_succ (m : Mem) (a n : ℕ) :
    m.loadBytes a (n + 1) = m.loadBytes a 1 ++ m.loadBytes (a + 1) n := by
  rw [Nat.add_comm n 1, loadBytes_append]

/-- The number of a single byte is that byte. -/
theorem loadBytes_store_one {b : UInt8} : (m.store 1 a b.toNat).loadBytes a 1 = [b] := by
  simp [loadBytes, store]

/-- The bytes stored are loaded back. -/
theorem loadBytes_storeBytes_self : (m.storeBytes a bs).loadBytes a bs.length = bs := by
  refine List.ext_getElem (by simp) fun i h₁ h₂ => ?_
  rw [getElem_loadBytes]
  unfold storeBytes
  rw [if_pos (by omega), Nat.add_sub_cancel_left, List.getD_eq_getElem _ _ h₂]

/-! ### Numbers as byte strings -/

theorem loadBytes_cons (m : Mem) (a n : ℕ) :
    m.loadBytes a (n + 1) = m a :: m.loadBytes (a + 1) n := by
  rw [loadBytes_succ]
  simp [loadBytes]

/-- The bytes of a number are those it is loaded from. -/
theorem leBytes_load (m : Mem) (n a : ℕ) : leBytes n (m.load n a) = m.loadBytes a n := by
  induction n generalizing a with
  | zero => rfl
  | succ n ih =>
    have hb : (m a).toNat < 256 := (m a).toNat_lt
    rw [load_succ, leBytes, loadBytes_cons, ← ih, Nat.add_mul_div_left _ _ (by norm_num),
      Nat.div_eq_of_lt hb, zero_add]
    congr 1
    rw [← UInt8.toNat_inj, UInt8.toNat_ofNat']
    omega

theorem leBytes_mod (n v : ℕ) : leBytes n (v % 256 ^ n) = leBytes n v := by
  induction n generalizing v with
  | zero => rfl
  | succ n ih =>
    rw [leBytes, leBytes, pow_succ', Nat.mod_mul_right_div_self, ih]
    congr 1
    rw [← UInt8.toNat_inj, UInt8.toNat_ofNat', UInt8.toNat_ofNat']
    exact Nat.mod_mul_right_mod _ _ _

theorem loadBytes_store_self : (m.store n a v).loadBytes a n = leBytes n v := by
  rw [← leBytes_load, load_store_self, leBytes_mod]

/-- The number in the bytes of a number that fits is that number. -/
theorem load_of_loadBytes (h : m.loadBytes a n = leBytes n v) (hv : v < 256 ^ n) : m.load n a = v := by
  have hinj : ∀ (n v w : ℕ), v < 256 ^ n → w < 256 ^ n → leBytes n v = leBytes n w → v = w := by
    intro n
    induction n with
    | zero => intro v w hv hw _; simp at hv hw; omega
    | succ n ih =>
      intro v w hv hw he
      simp only [leBytes, List.cons.injEq, ← UInt8.toNat_inj, UInt8.toNat_ofNat'] at he
      rw [pow_succ] at hv hw
      have := ih (v / 256) (w / 256) (Nat.div_lt_of_lt_mul (by omega)) (Nat.div_lt_of_lt_mul (by omega)) he.2
      omega
  exact hinj n _ _ (m.load_lt n a) hv ((leBytes_load m n a).trans h)

/-- The bytes `bs` are in the memory from `a` on. -/
def At (m : Mem) (a : ℕ) (bs : List UInt8) : Prop := m.loadBytes a bs.length = bs

theorem at_nil (m : Mem) (a : ℕ) : m.At a [] := List.length_eq_zero_iff.mp (length_loadBytes m a 0)

theorem at_append {cs : List UInt8} : m.At a (bs ++ cs) ↔ m.At a bs ∧ m.At (a + bs.length) cs := by
  rw [At, List.length_append, loadBytes_append]
  refine ⟨fun h => List.append_inj h (by simp), fun ⟨h₁, h₂⟩ => ?_⟩
  rw [At] at h₁ h₂
  rw [h₁, h₂]

theorem load_of_at (h : m.At a (leBytes n v)) (hv : v < 256 ^ n) : m.load n a = v := by
  rw [At, length_leBytes] at h
  exact load_of_loadBytes h hv

/-! ### Null-terminated strings -/

/-- The string from `a` up to its null byte, if there is one among the first `n`
bytes. -/
def cstr (m : Mem) : ℕ → ℕ → Option (List UInt8)
  | 0, _ => none
  | n + 1, a => if m a = 0 then some [] else (cstr m n (a + 1)).map (m a :: ·)

theorem cstr_of_at {s : List UInt8} (h : m.At a (s ++ [0])) (h0 : 0 ∉ s) (hn : s.length < n) :
    m.cstr n a = some s := by
  rw [At, List.length_append, List.length_singleton] at h
  induction s generalizing a n with
  | nil =>
    obtain ⟨n, rfl⟩ : ∃ k, n = k + 1 := ⟨n - 1, by omega⟩
    rw [loadBytes_cons] at h
    rw [cstr, if_pos (List.cons.inj h).1]
  | cons b s ih =>
    obtain ⟨n, rfl⟩ : ∃ k, n = k + 1 := ⟨n - 1, by omega⟩
    rw [List.length_cons, loadBytes_cons, List.cons_append, List.cons.injEq] at h
    simp only [List.mem_cons, not_or] at h0
    rw [cstr, h.1, if_neg fun hb => h0.1 hb.symm, ih h.2 h0.2 (by simpa using hn)]
    rfl

/-! ### What a run of stores leaves alone -/

/-- `m'` differs from `m` at most in the `n` bytes from `a`. -/
def SameOutside (a n : ℕ) (m m' : Mem) : Prop := ∀ x, x < a ∨ a + n ≤ x → m' x = m x

theorem SameOutside.refl (a n : ℕ) (m : Mem) : SameOutside a n m m := fun _ _ => rfl

theorem SameOutside.trans {m'' : Mem} (h : SameOutside a n m m') (h' : SameOutside a n m' m'') :
    SameOutside a n m m'' :=
  fun x hx => (h' x hx).trans (h x hx)

theorem sameOutside_store (h : a ≤ b) (h' : b + k ≤ a + n) : SameOutside a n m (m.store k b v) :=
  fun _ _ => store_of_disjoint (by omega)

theorem SameOutside.mono (h : SameOutside b k m m') (ha : a ≤ b) (hn : b + k ≤ a + n) :
    SameOutside a n m m' :=
  fun x hx => h x (by omega)

theorem SameOutside.load (h : SameOutside a k m m') (hd : a + k ≤ b ∨ b + n ≤ a) :
    m'.load n b = m.load n b :=
  load_congr fun x _ _ => h x (by omega)

theorem SameOutside.loadBytes (h : SameOutside a k m m') (hd : a + k ≤ b ∨ b + n ≤ a) :
    m'.loadBytes b n = m.loadBytes b n :=
  loadBytes_congr fun x _ _ => h x (by omega)

/-- `m'` differs from `m` at most in the `n` bytes from `a` and the `k` bytes from `b`. -/
def SameOutside₂ (a n b k : ℕ) (m m' : Mem) : Prop :=
  ∀ x, x < a ∨ a + n ≤ x → x < b ∨ b + k ≤ x → m' x = m x

theorem SameOutside₂.trans {m'' : Mem} (h : SameOutside₂ a n b k m m') (h' : SameOutside₂ a n b k m' m'') :
    SameOutside₂ a n b k m m'' :=
  fun x hx hx' => (h' x hx hx').trans (h x hx hx')

theorem SameOutside₂.refl (a n b k : ℕ) (m : Mem) : SameOutside₂ a n b k m m := fun _ _ _ => rfl

theorem SameOutside₂.mono {a' n' b' k' : ℕ} (h : SameOutside₂ a n b k m m') (ha : a' ≤ a)
    (hn : a + n ≤ a' + n') (hb : b' ≤ b) (hk : b + k ≤ b' + k') : SameOutside₂ a' n' b' k' m m' :=
  fun x hx hx' => h x (by omega) (by omega)

theorem SameOutside.fst {i j : ℕ} (h : SameOutside i j m m') (hi : a ≤ i) (hj : i + j ≤ a + n) :
    SameOutside₂ a n b k m m' :=
  fun x hx _ => h x (by omega)

theorem SameOutside.snd {i j : ℕ} (h : SameOutside i j m m') (hi : b ≤ i) (hj : i + j ≤ b + k) :
    SameOutside₂ a n b k m m' :=
  fun x _ hx => h x (by omega)

theorem SameOutside₂.at {i : ℕ} (h : SameOutside₂ a n b k m m') (hd : a + n ≤ i ∨ i + bs.length ≤ a)
    (hd' : b + k ≤ i ∨ i + bs.length ≤ b) (hat : m.At i bs) : m'.At i bs :=
  (loadBytes_congr fun x _ _ => h x (by omega) (by omega)).trans hat

theorem SameOutside.at {i : ℕ} (h : SameOutside a n m m') (hd : a + n ≤ i ∨ i + bs.length ≤ a)
    (hat : m.At i bs) : m'.At i bs :=
  (loadBytes_congr fun x _ _ => h x (by omega)).trans hat

-- from here on a load and a store are known by these lemmas only
attribute [irreducible] load store loadBytes storeBytes

end Mem

end ByteMem
