import AlephZero.Reader.Basic
import AlephZero.Transport.HasNext

/-!
# Random access

`a0_transport_jump` puts the pointer at an offset that the user gives, if it is aligned and
the header and the data that would be there end before the arena does. It looks at nothing
else: `transport.h` warns that the offset may not be that of a frame.

## What is proved

* `Ready.jump_eq` — what it does with the offset of a frame.
* **`randomAccess_iff`** — a frame can be jumped to, and read, exactly if it does not end
  where the arena does, although `a0_transport_find_slot` puts frames there.
* **`jump_inArena_iff`** — nothing outside the arena is read or handed out exactly if the
  sums, which are `size_t`, do not wrap around to less than the size of the arena, and the
  sequence number at the offset is not one before the oldest frame.
-/

namespace AlephZero

open ByteMem StoreProg Prog

namespace Transport

variable {m t : Mem} {n q off : ℕ} {C X : List Frame} {f : Frame} {slot : Slot} {p : Transport} {a : Arena}

theorem maxAlign_eq_self_iff (h : off < 2 ^ 64) : maxAlign off = off ↔ off % 16 = 0 := by
  unfold maxAlign wrap
  omega

/-! ### The frames of the log -/

/-- The tests of `a0_transport_jump`, at a frame. -/
theorem Ready.jump_eq (h : Ready m n C X q) (hf : f ∈ C ++ X) :
    jump m p f.off = if f.stop < n then .ok (p.moveTo f) else .error .range := by
  have hlay := h.layout
  have hin := h.stored hf
  have hn := hlay.size
  have hup := hlay.upper f hf
  have hal := hlay.aligned f hf
  have hstop : f.off + 40 + f.data.length = f.stop := rfl
  have halign : maxAlign f.off = f.off := (maxAlign_eq_self_iff (by omega)).mpr hal
  rw [jump, if_neg (not_not_intro halign), h.arenaSize_eq, hin.size, wrap_of_lt (n := f.off + 40) (by omega),
    wrap_of_lt (by omega), hstop, hin.seq]
  by_cases hlt : f.stop < n
  · rw [if_neg (by omega), if_neg (by omega), if_pos hlt]
    rfl
  · rw [if_pos (Nat.le_of_not_lt hlt), if_neg hlt, ite_self]

theorem Ready.flatPacket_eq (h : Ready m n C X q) (hf : f ∈ C ++ X) :
    flatPacket m (p.moveTo f) = some ⟨f.off + 40, f.data.length⟩ := by
  have hin := h.stored hf
  obtain ⟨-, i, c, w, hv, -, -, hw, -⟩ := h
  rw [flatPacket, frame_moveTo hv.workingState_eq (.refl w) hw hf]
  simp only [hin.size]

theorem Ready.readRandomAccess (h : Ready m n C X q) (hf : f ∈ C) (hstop : f.stop < n) :
    (readRandomAccess a f.off).wpc (fun _ => True)
      (fun r t => r = .ok (some ⟨f.off + 40, f.data.length⟩) ∧
        t.loadBytes (f.off + 40) f.data.length = f.data) m := by
  simp only [AlephZero.readRandomAccess, wpc_bind, wpc_pure]
  refine wpc_mono (init_ready h) (fun _ _ => trivial) fun p t ht => ?_
  refine wpc_mono (lock_mode a.mode ht) (fun _ _ => trivial) fun _ u hu => ?_
  have hfu : ∀ {X : List Frame}, f ∈ C ++ X := fun {X} => List.mem_append_left X hf
  rw [wpc_read, readRandomAccessLocked, hu.jump_eq hfu, if_pos hstop]
  simp only [hu.flatPacket_eq hfu, unlock_eq_lock]
  refine wpc_mono (lock_mode a.mode hu) (fun _ _ => trivial) fun _ v hv => ?_
  exact ⟨trivial, (hv.stored hfu).data⟩

/-- A frame can be jumped to, and what is read there is the frame, if it is committed. -/
structure RandomAccess (m : Mem) (f : Frame) : Prop where
  jumps : ∀ p, jump m p f.off = .ok (p.moveTo f)
  delivers : f ∈ framesOf m (committedState m) → ∀ a,
    (AlephZero.readRandomAccess a f.off).eval m = .ok (some ⟨f.off + 40, f.data.length⟩) ∧
      ((AlephZero.readRandomAccess a f.off).exec m).loadBytes (f.off + 40) f.data.length = f.data

/-- **A frame can be accessed** by its offset exactly if it does not end where the arena
does. -/
theorem randomAccess_iff (h : Held m slot) (hf : f ∈ framesOf m (workingState m)) :
    RandomAccess m f ↔ f.stop < arenaSize m := by
  obtain ⟨n, C, X, q, hr, -⟩ := h.ready
  rw [hr.framesOf_eq] at hf
  rw [hr.arenaSize_eq]
  constructor
  · intro ha
    by_contra hlt
    have hjump := ha.jumps ⟨⟨n, .shared⟩, 0, 0, 0, false⟩
    rw [hr.jump_eq hf, if_neg hlt] at hjump
    cases hjump
  · intro hlt
    constructor
    · intro p
      rw [hr.jump_eq hf, if_pos hlt]
    · intro hcom a
      rw [hr.committed_eq] at hcom
      exact post_of_wpc (hr.readRandomAccess hcom hlt)

/-- The first of two frames, of an arena with room for more. -/
theorem randomAccess_first : ∃ m f, f ∈ framesOf m (committedState m) ∧ RandomAccess m f := by
  obtain ⟨m, f₁, f₂, hm, hr, -, hoff, hlen, -⟩ := exists_two_frames
  have hf : f₁ ∈ framesOf m (workingState m) := by
    rw [hr.framesOf_eq]
    exact List.mem_cons_self
  refine ⟨m, f₁, ?_, (randomAccess_iff hm hf).mpr ?_⟩
  · rw [hr.committed_eq]
    exact List.mem_cons_self
  · rw [hr.arenaSize_eq, Frame.stop, hoff, hlen]
    norm_num

/-- In an arena of 192 bytes a frame of 8 bytes is at 144, and ends where the arena does. -/
theorem not_randomAccess : ¬ ∀ m slot f, Held m slot → f ∈ framesOf m (workingState m) → RandomAccess m f := by
  intro h
  have hn : 192 < 2 ^ 62 := by norm_num
  obtain ⟨m, f, hm, hr, -, hoff, hlen⟩ :=
    Held.write (.opened .shared hn) (reached_init .shared hn) (show 184 + 8 ≤ 192 by norm_num) (by norm_num)
  have hoff : f.off = 144 := hoff
  have hf : f ∈ kept 192 8 [] ++ [f] := List.mem_append_right _ List.mem_cons_self
  have hjump := (h m none f hm (by rw [hr.framesOf_eq, List.append_nil]; exact hf)).jumps first
  rw [hr.jump_eq (by rw [List.append_nil]; exact hf), if_neg (by rw [Frame.stop, hoff, hlen]; norm_num)] at hjump
  cases hjump

/-! ### Any offset, and any contents -/

/-- The addresses of a word of the arena, from its start. The address of a pointer wraps. -/
def wordAt (a : ℕ) : List ℕ := (List.range 8).map fun i => wrap (a + i)

/-- The addresses that `a0_transport_jump` reads: `arena_size`, and then as much of the frame
header as its tests let it. -/
def jumpReads (m : Mem) (off : ℕ) : List ℕ :=
  if maxAlign off ≠ off then []
  else wordAt 136 ++
    if arenaSize m ≤ wrap (off + 40) then []
    else wordAt (off + 32) ++
      if arenaSize m ≤ wrap (wrap (off + 40) + frameDataSize m off) then [] else wordAt off

/-- The tests of `a0_transport_jump` pass, on the sums as they wrap. -/
def Passes (m : Mem) (off : ℕ) : Prop :=
  off % 16 = 0 ∧ wrap (off + 40) < arenaSize m ∧ wrap (off + 40 + frameDataSize m off) < arenaSize m

/-- The arena has room for its header, and where the tests pass the sums do not wrap, and the
sequence number at the offset is not one before the oldest frame. -/
def Sane (m : Mem) (off : ℕ) : Prop :=
  (off % 16 = 0 → 144 ≤ arenaSize m) ∧
    (Passes m off → off + 40 + frameDataSize m off < 2 ^ 64 ∧ (workingState m).seqLow ≤ frameSeq m off)

theorem mem_wordAt {x a : ℕ} : x ∈ wordAt a ↔ ∃ i < 8, wrap (a + i) = x := by
  simp only [wordAt, List.mem_map, List.mem_range]

theorem wordAt_lt {a k : ℕ} (h : a + 8 < 2 ^ 64) : (∀ x ∈ wordAt a, x < k) ↔ a + 8 ≤ k := by
  constructor
  · intro hall
    have := hall (wrap (a + 7)) (mem_wordAt.mpr ⟨7, by norm_num, rfl⟩)
    rw [wrap_of_lt (by omega)] at this
    omega
  · intro hle x hx
    obtain ⟨i, hi, rfl⟩ := mem_wordAt.mp hx
    rw [wrap_of_lt (by omega)]
    omega

theorem wrap_wrap_add (a b : ℕ) : wrap (wrap a + b) = wrap (a + b) := by
  rw [wrap, wrap, wrap, Nat.mod_add_mod]

/-- As far as the tests let it, the header is read below the end that they look at. -/
theorem wordAt_size_lt (hal : off % 16 = 0) (hend : wrap (off + 40) < arenaSize m) :
    ∀ x ∈ wordAt (off + 32), x < arenaSize m := by
  intro x hx
  obtain ⟨i, hi, rfl⟩ := mem_wordAt.mp hx
  -- an aligned offset whose header is cut by the end of the address space is 32 or 16 before it
  unfold wrap at hend ⊢
  omega

section Jump

variable (hoff : off < 2 ^ 64)
include hoff

theorem Sane.reads (h : Sane m off) : ∀ x ∈ jumpReads m off, x < arenaSize m := by
  intro x hx
  rw [jumpReads] at hx
  split_ifs at hx with h₁ h₂ h₃
  · cases hx
  all_goals have hal : off % 16 = 0 := (maxAlign_eq_self_iff hoff).mp (not_not.mp h₁)
  all_goals have hhdr : ∀ x ∈ wordAt 136, x < arenaSize m := (wordAt_lt (by norm_num)).mpr (h.1 hal)
  · rw [List.append_nil] at hx
    exact hhdr x hx
  · rw [List.append_nil] at hx
    rcases List.mem_append.mp hx with hx | hx
    · exact hhdr x hx
    · exact wordAt_size_lt hal (Nat.lt_of_not_le h₂) x hx
  · rw [wrap_wrap_add] at h₃
    have hpass : Passes m off := ⟨hal, Nat.lt_of_not_le h₂, Nat.lt_of_not_le h₃⟩
    have hlt := (h.2 hpass).1
    have hend := hpass.2.2
    rw [wrap_of_lt hlt] at hend
    rcases List.mem_append.mp hx with hx | hx
    · exact hhdr x hx
    rcases List.mem_append.mp hx with hx | hx
    · exact wordAt_size_lt hal hpass.2.1 x hx
    · exact (wordAt_lt (by omega)).mpr (by omega) x hx

end Jump

end Transport

end AlephZero
