import AlephZero.Transport.Invariant

/-!
# Deaths while an arena is opened

`a0_transport_init` fills in the header of an arena that is all zero, and first converts one
that version 0.2 has left: it reads the words of the committed page, zeroes the header, and
stores them again. It does not have the lock when it does so.

## The model

A process runs `init` and dies before any of its stores, or after the last one, and another
one runs `init` to the end. What they find are `seq_low`, `seq_high`, the head and the tail,
on the page that connections in this mode work on. That a lock is waited for is not in the
model, whatever is in the words of the mutex.

## What is proved

* `initRest_keeps` — what `init` leaves of an arena that is not one of version 0.2.
* `update_wpc` — what the conversion leaves where it is cut off.
* **`init_crashSafe_iff`** — a death does no harm if the page is blank, and only then.
* `not_init_crashSafe` — with one frame it does.
-/

namespace AlephZero

open ByteMem StoreProg Prog

/-- The words that tell which frames there are. -/
def TransportState.words (s : TransportState) : ℕ × ℕ × ℕ × ℕ := (s.seqLow, s.seqHigh, s.offHead, s.offTail)

namespace Transport

variable {a : Arena} {mode : ArenaMode} {m t u : Mem} {p : ℕ}

/-- The same words of an arena of version 0.2. -/
def words02 (m : Mem) : ℕ × ℕ × ℕ × ℕ :=
  let page := if m.load 4 120 ≠ 0 then 88 else 56
  (m.load 8 page, m.load 8 (page + 8), m.load 8 (page + 16), m.load 8 (page + 24))

/-- Wherever a process dies in `a0_transport_init`, the next one finds what it would have found
without the death, and so does one after it. -/
def InitCrashSafe (a : Arena) (m : Mem) : Prop :=
  ∀ t, (init a).Crash m t →
    (seen a.mode ((init a).exec t)).words = (seen a.mode ((init a).exec m)).words ∧
    (seen a.mode ((init a).exec ((init a).exec t))).words = (seen a.mode ((init a).exec t)).words

/-! ### The page that is seen -/

/-- Where the page is. -/
def seenPage (mode : ArenaMode) (m : Mem) : ℕ := if mode = .shared then committedPage m else workingPage m

theorem seen_eq (mode : ArenaMode) (m : Mem) : seen mode m = loadState m (seenPage mode m) := by
  rw [seen, seenPage]
  split_ifs <;> rfl

theorem committedPageIdx_eq (m : Mem) : committedPageIdx m = (m 128).toNat := by
  have hnone : m.load 0 (128 + 1) = 0 := Mem.load_eq_zero_iff.mpr fun x _ _ => by omega
  rw [committedPageIdx, Mem.load_succ, hnone, Nat.mul_zero, Nat.add_zero]

theorem words_congr (h : ∀ x, p ≤ x → x < p + 32 → t x = m x) : (loadState t p).words = (loadState m p).words := by
  have keep : ∀ k, k + 8 ≤ 32 → t.load 8 (p + k) = m.load 8 (p + k) :=
    fun k hk => Mem.load_congr fun x _ _ => h x (by omega) (by omega)
  simp only [TransportState.words, loadState, keep 8 (by omega), keep 16 (by omega), keep 24 (by omega)]
  rw [show t.load 8 p = m.load 8 p from keep 0 (by omega)]

/-- All four words are zero. -/
theorem words_eq_zero_iff : (loadState m p).words = (0, 0, 0, 0) ↔ ∀ x, p ≤ x → x < p + 32 → m x = 0 := by
  simp only [TransportState.words, loadState, Prod.mk.injEq, Mem.load_eq_zero_iff]
  constructor
  · rintro ⟨h₁, h₂, h₃, h₄⟩ x hx hx'
    rcases Nat.lt_or_ge x (p + 8) with hlt | hge
    · exact h₁ x hx hlt
    rcases Nat.lt_or_ge x (p + 16) with hlt | hge
    · exact h₂ x (by omega) (by omega)
    rcases Nat.lt_or_ge x (p + 24) with hlt | hge
    · exact h₃ x (by omega) (by omega)
    · exact h₄ x (by omega) (by omega)
  · intro h
    exact ⟨fun x _ _ => h x (by omega) (by omega), fun x _ _ => h x (by omega) (by omega),
      fun x _ _ => h x (by omega) (by omega), fun x _ _ => h x (by omega) (by omega)⟩

/-- The page is one of those behind the condition variable. -/
theorem exists_statePage (mode : ArenaMode) (m : Mem) : ∃ j, seenPage mode m = statePage j := by
  rw [seenPage]
  split_ifs
  · exact ⟨_, rfl⟩
  · exact ⟨_, rfl⟩

/-! ### An arena that is not one of version 0.2 -/

/-- The page at `p` is the committed one as before, and has the same words. If it is where the
index is, the index is all that counts. -/
structure Keeps (p : ℕ) (m t : Mem) : Prop where
  tag : t 0 ≠ 1
  idx : t 128 = m 128
  page : p ≠ 128 → ∀ x, p ≤ x → x < p + 32 → t x = m x

theorem Keeps.refl (p : ℕ) (h : m 0 ≠ 1) : Keeps p m m := ⟨h, rfl, fun _ _ _ _ => rfl⟩

/-- Stores to other places. -/
theorem Keeps.sameOutside {b k : ℕ} (h : Keeps p m t) (hs : Mem.SameOutside b k t u) (htag : u 0 ≠ 1)
    (hidx : 128 < b ∨ b + k ≤ 128) (hp : p ≠ 128 → p + 32 ≤ b ∨ b + k ≤ p) : Keeps p m u := by
  refine ⟨htag, (hs 128 (by omega)).trans h.idx, fun hne x hx hx' => ?_⟩
  have hd := hp hne
  exact (hs x (by omega)).trans (h.page hne x hx hx')

theorem Keeps.behind {b k : ℕ} (h : Keeps p m t) (hs : Mem.SameOutside b k t u) (hb : 0 < b)
    (hidx : 128 < b ∨ b + k ≤ 128) (hp : p ≠ 128 → p + 32 ≤ b ∨ b + k ≤ p) : Keeps p m u :=
  h.sameOutside hs (by rw [hs 0 (by omega)]; exact h.tag) hidx hp

/-- The lock is taken, or given up. -/
theorem Keeps.lock (h : Keeps p m t) (hp : p = seenPage mode m) :
    (lock mode).wpc (Keeps p m) (fun _ => Keeps p m) t := by
  by_cases hmode : mode = .shared
  · have hidx : committedPageIdx t = committedPageIdx m := by rw [committedPageIdx_eq, committedPageIdx_eq, h.idx]
    rw [seenPage, if_pos hmode, committedPage, statePage, ← hidx] at hp
    have hkeep : ∀ u, Mem.SameOutside (workingPage t) 40 t u → Keeps p m u := by
      intro u hs
      rw [workingPage, statePage, lnot] at hs
      split_ifs at hs
      · exact h.behind hs (by omega) (by omega) (by omega)
      · exact h.behind hs (by omega) (by omega) (by omega)
    simp only [Transport.lock, hmode, ne_eq, not_true_eq_false, if_false, wpc_bind, wpc_read]
    exact wpc_mono copyState_wpc (fun u hu => hkeep u hu) fun _ u hu => hkeep u hu.1
  · rw [lock_of_ne hmode, wpc_pure]
    exact h

/-- The header is filled in. -/
theorem Keeps.initHeader {size : ℕ} (h : Keeps p m t) (hp : ∃ j, p = statePage j) :
    (initHeader size).wpc (Keeps p m) (fun _ => Keeps p m) t := by
  obtain ⟨j, hj⟩ := hp
  have hlow : 48 ≤ p ∧ (p ≠ 128 → p = 48 ∨ p = 88 ∨ 168 ≤ p) := by
    rw [statePage] at hj
    omega
  have hword : ∀ {b v : ℕ} {t : Mem}, Keeps p m t → b = 136 ∨ b = 80 ∨ b = 120 → Keeps p m (t.store 8 b v) := by
    intro b v t ht hb
    exact ht.behind (Mem.sameOutside_store le_rfl le_rfl) (by omega) (by omega) (by omega)
  simp only [Transport.initHeader, wpc_bind, wpc_read]
  split_ifs
  · have hcopy : ∀ {b : ℕ} {bs : List UInt8} {t : Mem}, Keeps p m t → b + bs.length ≤ 12 → 1 ∉ bs →
        (memcpy b bs).wpc (Keeps p m) (fun _ => Keeps p m) t := by
      intro b bs t ht hb hbs
      have step : ∀ u, Mem.SameOutside b bs.length t u → (∀ x, u x = t x ∨ u x ∈ bs) → Keeps p m u := by
        intro u hs hm
        refine ht.sameOutside hs ?_ (by omega) (by omega)
        rcases hm 0 with h₀ | h₀
        · rw [h₀]
          exact ht.tag
        · exact fun h₁ => hbs (h₁ ▸ h₀)
      exact wpc_mono (wpc_and memcpy_wpc memcpy_mem_wpc) (fun u hu => step u hu.1 hu.2) fun _ u hu => step u hu.1.1 hu.2
    simp only [wpc_bind]
    refine wpc_mono (hcopy h (by decide) (by decide)) (fun _ hu => hu) fun _ u hu => ?_
    refine wpc_mono (hcopy hu (by decide) (by decide)) (fun _ hv => hv) fun _ v hv => ?_
    simp only [storeWord, wpc_write, workspaceOff_eq]
    have h₁ := hword (v := size) hv (.inl rfl)
    have h₂ := hword (v := 144) h₁ (.inr (.inl rfl))
    have h₃ := hword (v := 144) h₂ (.inr (.inr rfl))
    have h₄ : Keeps p m _ := h₃.behind (Mem.sameOutside_store (b := 12) (k := 1) (v := 1) le_rfl le_rfl)
      (by omega) (by omega) (by omega)
    exact ⟨h₁, h₂, h₃, h₄, h₄⟩
  · exact wpc_pure.mpr h

/-- `a0_transport_init` without the conversion. -/
def initRest (a : Arena) : Prog Mem Transport := do
  initMtx a.mode
  lock a.mode
  Transport.initHeader a.size
  unlock a.mode
  pure { arena := a }

theorem init_eq (a : Arena) : init a = (do backwardCompatibilityUpdateFrom02 a; initRest a) := rfl

theorem initRest_keeps (h : m 0 ≠ 1) :
    (initRest a).wpc (Keeps (seenPage a.mode m) m) (fun _ => Keeps (seenPage a.mode m) m) m := by
  obtain ⟨j, hj⟩ := exists_statePage a.mode m
  have hlow : 48 ≤ seenPage a.mode m := by
    rw [hj, statePage]
    omega
  simp only [initRest, wpc_bind, unlock_eq_lock]
  have hmtx : ∀ t : Mem, Mem.SameOutside 16 24 m t → Keeps (seenPage a.mode m) m t :=
    fun t hs => (Keeps.refl _ h).behind hs (by omega) (by omega) (by omega)
  refine wpc_mono (initMtx_wpc a.mode) (fun t ht => hmtx t ht) fun _ t ht => ?_
  refine wpc_mono ((hmtx t ht).lock rfl) (fun _ hu => hu) fun _ u hu => ?_
  refine wpc_mono (hu.initHeader ⟨j, hj⟩) (fun _ hv => hv) fun _ v hv => ?_
  exact wpc_mono (hv.lock rfl) (fun _ hw => hw) fun _ w hw => wpc_pure.mpr hw

theorem Keeps.seenPage_eq (h : Keeps p m t) : seenPage mode t = seenPage mode m := by
  have hidx : committedPageIdx t = committedPageIdx m := by rw [committedPageIdx_eq, committedPageIdx_eq, h.idx]
  rw [seenPage, seenPage, committedPage, committedPage, workingPage, workingPage, hidx]

theorem Keeps.words (h : Keeps (seenPage mode m) m t) (hp : seenPage mode m ≠ 128) :
    (seen mode t).words = (seen mode m).words := by
  rw [seen_eq, seen_eq, h.seenPage_eq]
  exact words_congr (h.page hp)

/-- If the page is where the index is, it is not blank. -/
theorem words_ne_zero (hp : seenPage mode m = 128) : (seen mode m).words ≠ (0, 0, 0, 0) := by
  intro hzero
  rw [seen_eq, words_eq_zero_iff, hp] at hzero
  have hidx : committedPageIdx m = 0 := by
    rw [committedPageIdx_eq, hzero 128 le_rfl (by norm_num)]
    rfl
  rw [seenPage, committedPage, workingPage, hidx] at hp
  split_ifs at hp <;> simp [statePage, lnot] at hp

theorem Keeps.blank_iff (h : Keeps (seenPage mode m) m t) :
    (seen mode t).words = (0, 0, 0, 0) ↔ (seen mode m).words = (0, 0, 0, 0) := by
  by_cases hp : seenPage mode m = 128
  · have ht : seenPage mode t = 128 := h.seenPage_eq.trans hp
    exact ⟨fun hz => absurd hz (words_ne_zero ht), fun hz => absurd hz (words_ne_zero hp)⟩
  · rw [h.words hp]

/-- `a0_transport_init` of an arena that is not one of version 0.2. -/
theorem init_keeps (h : m 0 ≠ 1) :
    (init a).wpc (Keeps (seenPage a.mode m) m) (fun _ => Keeps (seenPage a.mode m) m) m := by
  rw [init_eq]
  simp only [wpc_bind]
  exact backwardCompatibilityUpdateFrom02_wpc h (initRest_keeps h)

/-- An arena of a later version, or none, without a frame. -/
structure Vacant (mode : ArenaMode) (m : Mem) : Prop where
  tag : m 0 ≠ 1
  blank : (seen mode m).words = (0, 0, 0, 0)

theorem Vacant.keeps (h : Vacant mode m) (hk : Keeps (seenPage mode m) m t) : Vacant mode t :=
  ⟨hk.tag, hk.blank_iff.mpr h.blank⟩

theorem Vacant.initRest (h : Vacant a.mode m) :
    (initRest a).wpc (Vacant a.mode) (fun _ => Vacant a.mode) m :=
  wpc_mono (initRest_keeps h.tag) (fun _ ht => h.keeps ht) fun _ _ ht => h.keeps ht

theorem Vacant.init (h : Vacant a.mode m) : Vacant a.mode ((init a).exec m) :=
  h.keeps (post_of_wpc (init_keeps h.tag))

/-! ### The conversion -/

/-- The header has been zeroed, and what has been stored since is what was there before. -/
structure Zeroed (m t : Mem) : Prop where
  tag : t 0 ≠ 1
  idx : t 128 = 0
  blank : words02 m = (0, 0, 0, 0) → ∀ x, 48 ≤ x ∧ x < 80 ∨ 88 ≤ x ∧ x < 120 → t x = 0

theorem seenPage_zeroed (mode : ArenaMode) (h : t 128 = 0) : seenPage mode t = 48 ∨ seenPage mode t = 88 := by
  have hidx : committedPageIdx t = 0 := by
    rw [committedPageIdx_eq, h]
    rfl
  rw [seenPage, committedPage, workingPage, hidx]
  split_ifs
  · exact .inl rfl
  · exact .inr rfl

theorem Zeroed.vacant (h : Zeroed m t) (hm : words02 m = (0, 0, 0, 0)) : Vacant mode t := by
  refine ⟨h.tag, ?_⟩
  rw [seen_eq, words_eq_zero_iff]
  intro x hx hx'
  refine h.blank hm x ?_
  rcases seenPage_zeroed mode h.idx with hp | hp <;> rw [hp] at hx hx' <;> omega

theorem Zeroed.sameOutside {b k : ℕ} (h : Zeroed m t) (hs : Mem.SameOutside b k t u) (htag : u 0 ≠ 1)
    (hb : b + k ≤ 48 ∨ 80 ≤ b ∧ b + k ≤ 88 ∨ 128 < b) : Zeroed m u := by
  refine ⟨htag, (hs 128 (by omega)).trans h.idx, fun hm x hx => ?_⟩
  exact (hs x (by omega)).trans (h.blank hm x hx)

/-- A word is stored back. -/
theorem Zeroed.store {b v : ℕ} (h : Zeroed m t) (hb : 48 ≤ b ∧ b + 8 ≤ 128)
    (hv : words02 m = (0, 0, 0, 0) → v = 0 ∨ b = 80 ∨ b = 120) : Zeroed m (t.store 8 b v) := by
  have hs : Mem.SameOutside b 8 t (t.store 8 b v) := Mem.sameOutside_store le_rfl le_rfl
  refine ⟨?_, (hs 128 (by omega)).trans h.idx, fun hm x hx => ?_⟩
  · rw [hs 0 (by omega)]
    exact h.tag
  · rcases hv hm with rfl | hb' | hb'
    · rw [Mem.store_zero]
      split_ifs
      · rfl
      · exact h.blank hm x hx
    · exact (hs x (by omega)).trans (h.blank hm x hx)
    · exact (hs x (by omega)).trans (h.blank hm x hx)

/-- While the header is being zeroed. -/
theorem vacant_prefix {k : ℕ} (hk : 0 < k) (ht : ∀ x, t x = if 0 ≤ x ∧ x < 0 + k then 0 else m x)
    (hm : (seen mode m).words = (0, 0, 0, 0)) : Vacant mode t := by
  have hzero : ∀ x, m x = 0 → t x = 0 := by
    intro x hx
    rw [ht x]
    split_ifs
    · rfl
    · exact hx
  have hlow : ∀ x, x < k → t x = 0 := fun x hx => by rw [ht x, if_pos (by omega)]
  refine ⟨by rw [hlow 0 hk]; decide, ?_⟩
  rw [seen_eq, words_eq_zero_iff] at hm ⊢
  by_cases hidx : 128 < k
  · -- the index is zero, and so is everything in front of it
    intro x hx hx'
    rcases seenPage_zeroed mode (hlow 128 hidx) with hp | hp <;> rw [hp] at hx hx' <;>
      exact hlow x (by omega)
  · have hsame : t 128 = m 128 := by rw [ht 128, if_neg (by omega)]
    have hpage : seenPage mode t = seenPage mode m := by
      rw [seenPage, seenPage, committedPage, committedPage, workingPage, workingPage, committedPageIdx_eq,
        committedPageIdx_eq, hsame]
    rw [hpage]
    exact fun x hx hx' => hzero x (hm x hx hx')

/-- Some bytes that are not in the pages are stored. -/
theorem Zeroed.memcpy {b : ℕ} {bs : List UInt8} (h : Zeroed m t) (hb : b + bs.length ≤ 12) (hbs : 1 ∉ bs) :
    (memcpy b bs).wpc (Zeroed m) (fun _ => Zeroed m) t := by
  have step : ∀ u, Mem.SameOutside b bs.length t u → (∀ x, u x = t x ∨ u x ∈ bs) → Zeroed m u := by
    intro u hs hu
    refine h.sameOutside hs ?_ (by omega)
    rcases hu 0 with h₀ | h₀
    · rw [h₀]
      exact h.tag
    · exact fun h₁ => hbs (h₁ ▸ h₀)
  exact wpc_mono (wpc_and memcpy_wpc memcpy_mem_wpc) (fun u hu => step u hu.1 hu.2) fun _ u hu => step u hu.1.1 hu.2

/-- The words of the committed page of version 0.2, stored to a page. -/
def storeWords (b : ℕ) (w : ℕ × ℕ × ℕ × ℕ) (m : Mem) : Mem :=
  (((m.store 8 b w.1).store 8 (b + 8) w.2.1).store 8 (b + 16) w.2.2.1).store 8 (b + 24) w.2.2.2

theorem words_storeWords {b : ℕ} {w : ℕ × ℕ × ℕ × ℕ}
    (hw : w.1 < 2 ^ 64 ∧ w.2.1 < 2 ^ 64 ∧ w.2.2.1 < 2 ^ 64 ∧ w.2.2.2 < 2 ^ 64) :
    (loadState (storeWords b w m) b).words = w := by
  obtain ⟨h₁, h₂, h₃, h₄⟩ := hw
  simp only [TransportState.words, loadState, storeWords]
  rw [load_store_word h₄]
  rw [Mem.load_store_of_disjoint (a := b + 24) (b := b + 16) (by omega), load_store_word h₃]
  rw [Mem.load_store_of_disjoint (a := b + 24) (b := b + 8) (by omega),
    Mem.load_store_of_disjoint (a := b + 16) (b := b + 8) (by omega), load_store_word h₂]
  rw [Mem.load_store_of_disjoint (a := b + 24) (b := b) (by omega),
    Mem.load_store_of_disjoint (a := b + 16) (b := b) (by omega),
    Mem.load_store_of_disjoint (a := b + 8) (b := b) (by omega), load_store_word h₁]

theorem words_lt (m : Mem) (p : ℕ) : let w := (loadState m p).words
    w.1 < 2 ^ 64 ∧ w.2.1 < 2 ^ 64 ∧ w.2.2.1 < 2 ^ 64 ∧ w.2.2.2 < 2 ^ 64 :=
  ⟨load8_lt _ _, load8_lt _ _, load8_lt _ _, load8_lt _ _⟩

theorem words02_eq (m : Mem) : words02 m = (loadState m (if m.load 4 120 ≠ 0 then 88 else 56)).words := rfl

theorem sameOutside_storeWords {b : ℕ} {w : ℕ × ℕ × ℕ × ℕ} : Mem.SameOutside b 32 m (storeWords b w m) := by
  have h₁ : Mem.SameOutside b 32 m (m.store 8 b w.1) := Mem.sameOutside_store le_rfl (by omega)
  have h₂ := h₁.trans (Mem.sameOutside_store (b := b + 8) (k := 8) (v := w.2.1) (by omega) (by omega))
  have h₃ := h₂.trans (Mem.sameOutside_store (b := b + 16) (k := 8) (v := w.2.2.1) (by omega) (by omega))
  exact h₃.trans (Mem.sameOutside_store (b := b + 24) (k := 8) (v := w.2.2.2) (by omega) (by omega))

/-- The words that are stored are those of the committed page, or are copied from it. -/
theorem Zeroed.load {b : ℕ} (h : Zeroed m t) (hb : 48 ≤ b ∧ b + 8 ≤ 80) (hm : words02 m = (0, 0, 0, 0)) :
    t.load 8 b = 0 := Mem.load_eq_zero_iff.mpr fun x hx hx' => h.blank hm x (by omega)

/-- The first page is copied to the other one, and the arena is in use. -/
theorem Zeroed.copy_wpc (h : Zeroed m u) (hw : (loadState u 48).words = words02 m) {C : Mem → Prop}
    (hC : ∀ t, Zeroed m t → C t) :
    (do copyState 88 48; Prog.write fun t => t.store 1 12 1 : Prog Mem Unit).wpc C
      (fun _ t => Zeroed m t ∧ (loadState t 48).words = words02 m ∧ (loadState t 88).words = words02 m) u := by
  have h₁ := h.store (b := 88) (v := u.load 8 48) (by omega) fun hm => .inl (h.load (by omega) hm)
  have h₂ := h₁.store (b := 96) (v := u.load 8 56) (by omega) fun hm => .inl (h.load (by omega) hm)
  have h₃ := h₂.store (b := 104) (v := u.load 8 64) (by omega) fun hm => .inl (h.load (by omega) hm)
  have h₄ := h₃.store (b := 112) (v := u.load 8 72) (by omega) fun hm => .inl (h.load (by omega) hm)
  have h₅ := h₄.store (b := 120) (v := u.load 8 80) (by omega) fun _ => .inr (.inr rfl)
  have hs : Mem.SameOutside 120 8 _ _ := Mem.sameOutside_store (m := storeWords 88 (loadState u 48).words u)
    (b := 120) (k := 8) (v := u.load 8 80) le_rfl le_rfl
  have ht := Mem.sameOutside_store (m := (storeWords 88 (loadState u 48).words u).store 8 120 (u.load 8 80))
    (a := 12) (n := 1) (b := 12) (k := 1) (v := 1) le_rfl le_rfl
  have h₆ : Zeroed m _ := h₅.sameOutside ht (by rw [ht 0 (by omega)]; exact h₅.tag) (by omega)
  simp only [copyState, storeWord, wpc_bind, wpc_read, wpc_write]
  refine ⟨hC _ h₁, hC _ h₂, hC _ h₃, hC _ h₄, hC _ h₅, hC _ h₆, h₆, ?_, ?_⟩
  · rw [← hw]
    refine words_congr fun x hx hx' => ?_
    exact (ht x (by omega)).trans ((hs x (by omega)).trans (sameOutside_storeWords x (by omega)))
  · rw [← hw, ← words_storeWords (m := u) (b := 88) (words_lt u 48)]
    exact words_congr fun x hx hx' => (ht x (by omega)).trans (hs x (by omega))

/-- **What the conversion leaves.** -/
theorem update_wpc (a : Arena) (mode : ArenaMode) (htag : m.load 2 0 = 0x0101) :
    (backwardCompatibilityUpdateFrom02 a).wpc
      (fun t => words02 m = (0, 0, 0, 0) → (seen mode m).words = (0, 0, 0, 0) → Vacant mode t)
      (fun _ t => Zeroed m t ∧ (loadState t 48).words = words02 m ∧ (loadState t 88).words = words02 m) m := by
  have hC : ∀ t, Zeroed m t → words02 m = (0, 0, 0, 0) → (seen mode m).words = (0, 0, 0, 0) → Vacant mode t :=
    fun t ht hm _ => ht.vacant hm
  simp only [backwardCompatibilityUpdateFrom02, wpc_bind, wpc_read, htag, ne_eq, not_true_eq_false, if_false]
  refine wpc_mono memset_prefix_wpc (fun t ht _ hm => ?_) fun _ t ht => ?_
  · obtain ⟨k, hk, -, ht⟩ := ht
    exact vacant_prefix hk ht hm
  have hlow : ∀ x, x < 144 → t x = 0 := fun x hx => by rw [ht x, if_pos (by omega)]
  have hz : Zeroed m t := by
    refine ⟨?_, hlow 128 (by norm_num), fun _ x hx => hlow x (by omega)⟩
    rw [hlow 0 (by norm_num)]
    decide
  refine wpc_mono (hz.memcpy (by decide) (by decide)) hC fun _ t hz => ?_
  refine wpc_mono (hz.memcpy (by decide) (by decide)) hC fun _ t hz => ?_
  have hs : Mem.SameOutside 136 8 t (t.store 8 136 a.size) := Mem.sameOutside_store le_rfl le_rfl
  have h₀ : Zeroed m (t.store 8 136 a.size) := hz.sameOutside hs (by rw [hs 0 (by omega)]; exact hz.tag) (by omega)
  have hzero : words02 m = (0, 0, 0, 0) → (words02 m).1 = 0 ∧ (words02 m).2.1 = 0 ∧ (words02 m).2.2.1 = 0 ∧
      (words02 m).2.2.2 = 0 := by
    intro hm
    rw [hm]
    exact ⟨rfl, rfl, rfl, rfl⟩
  -- the first page
  have h₁ := h₀.store (b := 48) (v := (words02 m).1) (by omega) fun hm => .inl (hzero hm).1
  have h₂ := h₁.store (b := 56) (v := (words02 m).2.1) (by omega) fun hm => .inl (hzero hm).2.1
  have h₃ := h₂.store (b := 64) (v := (words02 m).2.2.1) (by omega) fun hm => .inl (hzero hm).2.2.1
  have h₄ := h₃.store (b := 72) (v := (words02 m).2.2.2) (by omega) fun hm => .inl (hzero hm).2.2.2
  have h₅ := h₄.store (b := 80) (v := a.size) (by omega) fun _ => .inr (.inl rfl)
  have hw : (loadState ((storeWords 48 (words02 m) (t.store 8 136 a.size)).store 8 80 a.size) 48).words =
      words02 m := by
    have hmark : Mem.SameOutside 80 8 (storeWords 48 (words02 m) (t.store 8 136 a.size)) _ :=
      Mem.sameOutside_store (v := a.size) le_rfl le_rfl
    rw [words_congr fun x hx hx' => hmark x (by omega), words_storeWords]
    rw [words02_eq]
    exact words_lt m _
  have hcopy := h₅.copy_wpc hw hC
  simp only [storeWord, wpc_bind, wpc_write] at hcopy ⊢
  exact ⟨hC _ h₀, hC _ h₁, hC _ h₂, hC _ h₃, hC _ h₄, hC _ h₅, hcopy⟩

/-! ### Deaths -/

/-- After the conversion the arena is opened like any other one. -/
theorem exec_of_tag (htag : m.load 2 0 = 0x0101) :
    (seen a.mode ((init a).exec m)).words = words02 m ∧ ((init a).exec m) 0 ≠ 1 ∧ ((init a).exec m) 128 = 0 := by
  obtain ⟨hz, h₄₈, h₈₈⟩ := post_of_wpc (update_wpc a a.mode htag)
  have hrest := post_of_wpc (initRest_keeps (a := a) hz.tag)
  have hwords : (seen a.mode ((backwardCompatibilityUpdateFrom02 a).exec m)).words = words02 m := by
    rw [seen_eq]
    rcases seenPage_zeroed a.mode hz.idx with hp | hp <;> rw [hp]
    · exact h₄₈
    · exact h₈₈
  have hexec : (init a).exec m = (initRest a).exec ((backwardCompatibilityUpdateFrom02 a).exec m) := rfl
  rw [hexec]
  refine ⟨?_, hrest.tag, hrest.idx.trans hz.idx⟩
  rw [← hwords, hrest.words]
  rcases seenPage_zeroed a.mode hz.idx with hp | hp <;> rw [hp] <;> norm_num

/-- Where the arena is vacant at each store, a death does no harm. -/
theorem crashSafe_of_vacant (h : (init a).wpc (Vacant a.mode) (fun _ => Vacant a.mode) m) : InitCrashSafe a m := by
  intro t ht
  have hend : Vacant a.mode ((init a).exec t) := by
    rcases ht with rfl | ht
    · exact h.2
    · exact (h.1 t ht).init
  rw [hend.blank, hend.init.blank]
  exact ⟨h.2.blank.symm, rfl⟩

/-- The header has been zeroed. -/
theorem words02_of_crashSafe (htag : m.load 2 0 = 0x0101) (h : InitCrashSafe a m) : words02 m = (0, 0, 0, 0) := by
  have ht := post_of_wpc (memset_prefix_wpc (m := m) (a := 0) (n := 144))
  have hlow : ∀ x, x < 144 → (memset 0 144).exec m x = 0 := fun x hx => by rw [ht x, if_pos (by omega)]
  have hvacant : Vacant a.mode ((memset 0 144).exec m) := by
    refine ⟨by rw [hlow 0 (by norm_num)]; decide, ?_⟩
    rw [seen_eq, words_eq_zero_iff]
    intro x hx hx'
    rcases seenPage_zeroed a.mode (hlow 128 (by norm_num)) with hp | hp <;> rw [hp] at hx hx' <;>
      exact hlow x (by omega)
  have hcrash : (init a).Crash m ((memset 0 144).exec m) := by
    rw [init_eq]
    apply crash_bind_left
    simp only [backwardCompatibilityUpdateFrom02, crash_read_bind, htag, ne_eq, not_true_eq_false, if_false]
    exact crash_bind_left memset_crash_exec
  rw [← (exec_of_tag htag).1, ← (h _ hcrash).1]
  exact hvacant.init.blank

/-- The first byte of the tag has been zeroed. -/
theorem seen_of_crashSafe (htag : m.load 2 0 = 0x0101) (h : InitCrashSafe a m) :
    (seen a.mode m).words = (0, 0, 0, 0) := by
  have hs : Mem.SameOutside 0 1 m (m.store 1 0 0) := Mem.sameOutside_store le_rfl le_rfl
  have hfirst : (m.store 1 0 0) 0 ≠ 1 := by
    rw [Mem.store_zero, if_pos (by omega)]
    decide
  have hcrash : (init a).Crash m (m.store 1 0 0) := by
    rw [init_eq]
    apply crash_bind_left
    simp only [backwardCompatibilityUpdateFrom02, crash_read_bind, htag, ne_eq, not_true_eq_false, if_false]
    exact crash_bind_left (memset_crash_first (by norm_num))
  have hend := (h _ hcrash).1
  rw [(exec_of_tag htag).1, words02_of_crashSafe htag h, (post_of_wpc (init_keeps hfirst)).blank_iff] at hend
  have hpage : seenPage a.mode (m.store 1 0 0) = seenPage a.mode m := by
    rw [seenPage, seenPage, committedPage, committedPage, workingPage, workingPage, committedPageIdx_eq,
      committedPageIdx_eq, hs 128 (by omega)]
  rw [seen_eq, hpage] at hend
  rw [seen_eq, ← hend]
  obtain ⟨j, hj⟩ := exists_statePage a.mode m
  refine (words_congr fun x hx _ => hs x ?_).symm
  rw [hj, statePage] at hx
  omega

/-- **A death while an arena is opened does no harm** if the arena is all zero, or is one of
version 0.2 that has no frame and has never had one, and whose bytes are zero where a later
version has its page; and of an arena of version 0.2 only then. -/
theorem init_crashSafe_iff (hm : (∀ x, m x = 0) ∨ m.load 2 0 = 0x0101) :
    InitCrashSafe a m ↔
      (∀ x, m x = 0) ∨ words02 m = (0, 0, 0, 0) ∧ (seen a.mode m).words = (0, 0, 0, 0) := by
  constructor
  · intro h
    rcases hm with hm | htag
    · exact .inl hm
    · exact .inr ⟨words02_of_crashSafe htag h, seen_of_crashSafe htag h⟩
  · intro h
    apply crashSafe_of_vacant
    by_cases hzero : ∀ x, m x = 0
    · have hvacant : Vacant a.mode m := by
        refine ⟨by rw [hzero 0]; decide, ?_⟩
        rw [seen_eq, words_eq_zero_iff]
        exact fun x _ _ => hzero x
      exact wpc_mono (init_keeps hvacant.tag) (fun _ ht => hvacant.keeps ht) fun _ _ ht => hvacant.keeps ht
    · obtain ⟨hwords, hseen⟩ := h.resolve_left hzero
      rw [init_eq, wpc_bind]
      refine wpc_mono (update_wpc a a.mode (hm.resolve_left hzero)) (fun t ht => ht hwords hseen) fun _ t ht => ?_
      exact (ht.1.vacant hwords).initRest

/-! ### One frame -/

/-- An arena of version 0.2 with one frame, which has no data. -/
def oneFrame02 : Mem :=
  storeWords 144 (1, 144, 0, 0) (storeWords 56 (1, 1, 144, 144) (Mem.store (fun _ => 0) 2 0 0x0101))

theorem oneFrame02_tag : oneFrame02.load 2 0 = 0x0101 := by
  rw [oneFrame02, sameOutside_storeWords.load (by omega), sameOutside_storeWords.load (by omega),
    Mem.load_store_of_lt (by norm_num)]

theorem words02_oneFrame02 : words02 oneFrame02 = (1, 1, 144, 144) := by
  have hidx : oneFrame02.load 4 120 = 0 := by
    rw [oneFrame02, sameOutside_storeWords.load (by omega), sameOutside_storeWords.load (by omega),
      Mem.load_store_of_disjoint (by omega), Mem.load_zeros]
  rw [words02_eq, hidx, if_neg (by decide), oneFrame02, words_congr fun x _ _ => sameOutside_storeWords x (by omega),
    words_storeWords (by norm_num)]

/-- A death in the conversion loses the frame. -/
theorem not_init_crashSafe : ¬ InitCrashSafe ⟨1000, .shared⟩ oneFrame02 := by
  intro h
  have hwords := words02_of_crashSafe oneFrame02_tag h
  rw [words02_oneFrame02] at hwords
  cases hwords

/-- An arena that is all zero. -/
theorem init_crashSafe_zeros : InitCrashSafe ⟨1000, .shared⟩ fun _ => 0 :=
  (init_crashSafe_iff (.inl fun _ => rfl)).mpr (.inl fun _ => rfl)

end Transport

end AlephZero
