import AlephZero.Packet.Codec

/-!
# Deep copies

`a0_packet_deep_copy` lays a packet out in one buffer, in a loop over its blocks;
`a0_packet_deserialize` does so in a loop over the index of the flat packet.

## The model

The array of headers is a run of pairs of addresses, as it is for a packet that is
deserialized. The error of the allocator is not looked at by either function.

## What is proved

* `deepCopyTo_wpc` — a deep copy stores the image of the packet to its buffer, and
  nothing outside.
* **`deepCopy_agrees`** — deep copies, and what is deserialized from a serialized packet,
  are of one size, hold the same, and have it at the same offsets.
-/

namespace AlephZero

open ByteMem StoreProg Prog

variable {m t : Mem} {hdr : PacketHeader} {hdrs : List PacketHeader} {out i off : ℕ}

namespace Packet

/-! ### The code -/

/-- One turn of the inner loop of `a0_packet_deep_copy`: the pointers of the header at
`hdrIdx` are stored, and its strings are copied to `off`, which advances. -/
def deepCopyHeader (out hdrIdx off : ℕ) (hdr : PacketHeader) : Prog Mem (ℕ × ℕ) := do
  storeWord (out + 16 * hdrIdx) (out + off)
  memcpy (out + off) hdr.key.terminated
  storeWord (out + 16 * hdrIdx + 8) (out + (off + (hdr.key.bytes.length + 1)))
  memcpy (out + (off + (hdr.key.bytes.length + 1))) hdr.val.terminated
  pure (hdrIdx + 1, off + (hdr.key.bytes.length + 1) + (hdr.val.bytes.length + 1))

/-- The inner loop of `a0_packet_deep_copy`. -/
def deepCopyBlock (out : ℕ) : List PacketHeader → ℕ → ℕ → Prog Mem (ℕ × ℕ)
  | [], hdrIdx, off => pure (hdrIdx, off)
  | hdr :: hdrs, hdrIdx, off => do
    let (hdrIdx, off) ← deepCopyHeader out hdrIdx off hdr
    deepCopyBlock out hdrs hdrIdx off

/-- The outer loop of `a0_packet_deep_copy`. -/
def deepCopyBlocks (out : ℕ) : List (List PacketHeader) → ℕ → ℕ → Prog Mem (ℕ × ℕ)
  | [], hdrIdx, off => pure (hdrIdx, off)
  | block :: blocks, hdrIdx, off => do
    let (hdrIdx, off) ← deepCopyBlock out block hdrIdx off
    deepCopyBlocks out blocks hdrIdx off

/-- `a0_packet_deep_copy`, once it has its buffer. -/
def deepCopyTo (pkt : Packet) (out : ℕ) : Prog Mem PacketRef := do
  let (_, off) ← deepCopyBlocks out pkt.headersBlock 0 (pkt.stats.numHdrs * 16)
  memcpy (out + off) pkt.payload
  pure ⟨pkt.id.bytes, out, pkt.stats.numHdrs, ⟨out + off, pkt.payload.length⟩⟩

/-- `a0_packet_deep_copy`; before the call the output buffer is `out`. -/
def deepCopy (pkt : Packet) (alloc : Alloc) (out : Buf) : Prog Mem (Option (PacketRef × Buf)) := do
  let r ← alloc (pkt.stats.numHdrs * 16 + pkt.stats.contentSize)
  match r with
  | none => pure none
  | some r => do
    let out := match r with
      | .ok buf => buf
      | .error _ => out
    let ref ← deepCopyTo pkt out.data
    pure (some (ref, out))

/-! ### Where a packet is in its buffer -/

end Packet

/-- The pointers in an array of headers. -/
def pointers (m : Mem) : ℕ → ℕ → List (ℕ × ℕ)
  | 0, _ => []
  | n + 1, a => (m.load 8 a, m.load 8 (a + 8)) :: pointers m n (a + 16)

/-- The offsets of the array of headers, of each key and value, and of the payload, from
the beginning of a buffer. -/
structure Layout where
  headers : ℤ
  strings : List (ℤ × ℤ)
  payload : ℤ
  deriving DecidableEq

/-- The layout of a packet by reference in a buffer. -/
def PacketRef.layout (m : Mem) (buf : Buf) (ref : PacketRef) : Layout :=
  ⟨ref.headers - buf.data,
    (pointers m ref.size ref.headers).map fun p => ((p.1 : ℤ) - buf.data, (p.2 : ℤ) - buf.data),
    ref.payload.data - buf.data⟩

/-- From `m` on, a program does what it does after a single call of its allocator, for `n`
bytes, whatever the allocator is. -/
def Requests {α : Type} (p : Alloc → Prog Mem α) (m : Mem) (n : ℕ) : Prop :=
  ∃ k : Option (Except Err Buf) → Prog Mem α, ∀ alloc,
    (p alloc).eval m = (alloc n >>= k).eval m ∧ (p alloc).exec m = (alloc n >>= k).exec m

theorem Requests.alloc {α : Type} {n : ℕ} {k : Option (Except Err Buf) → Prog Mem α} :
    Requests (fun alloc => alloc n >>= k) m n :=
  ⟨k, fun _ => ⟨rfl, rfl⟩⟩

/-- What is read first does not depend on the allocator. -/
theorem Requests.read {α β : Type} {n : ℕ} {g : Mem → β} {p : β → Alloc → Prog Mem α} (h : Requests (p (g m)) m n) :
    Requests (fun alloc => Prog.read g >>= fun b => p b alloc) m n := h

/-- The addresses of strings that stand from `off` on. -/
def addresses : ℕ → List PacketHeader → List (ℕ × ℕ)
  | _, [] => []
  | off, hdr :: hdrs => (off, off + (hdr.key.bytes.length + 1)) :: addresses (off + Packet.headerSize hdr) hdrs

/-- They are what an index holds. -/
theorem pointers_index {a : ℕ} (h : m.At a (index off hdrs)) (hfit : off + (strings hdrs).length ≤ addressSpace) :
    pointers m hdrs.length a = addresses off hdrs := by
  induction hdrs generalizing a off with
  | nil => rfl
  | cons hdr hdrs ih =>
    have hhdr : Packet.headerSize hdr = hdr.key.bytes.length + 1 + (hdr.val.bytes.length + 1) := rfl
    rw [index, Mem.at_append, Mem.at_append, List.length_append, length_leBytes, length_leBytes] at h
    rw [length_strings_cons] at hfit
    obtain ⟨⟨h₁, h₂⟩, h₃⟩ := h
    rw [List.length_cons, pointers, addresses, Mem.load_of_at h₁ (word_lt_iff.mpr (by omega)),
      Mem.load_of_at h₂ (word_lt_iff.mpr (by omega)), ih h₃ (by omega)]

/-- From the beginning of the buffer, they do not depend on the buffer. -/
theorem addresses_sub (base off : ℕ) (hdrs : List PacketHeader) :
    ((addresses (base + off) hdrs).map fun p => ((p.1 : ℤ) - base, (p.2 : ℤ) - base)) =
      (addresses off hdrs).map fun p => ((p.1 : ℤ), (p.2 : ℤ)) := by
  induction hdrs generalizing off with
  | nil => rfl
  | cons hdr hdrs ih =>
    rw [addresses, addresses, Nat.add_assoc base off (Packet.headerSize hdr), List.map_cons, List.map_cons, ih]
    congr 2 <;> push_cast <;> ring

namespace Packet

/-- The layout of an image. -/
def layout (pkt : Packet) : Layout :=
  ⟨0, (addresses (16 * pkt.headers.length) pkt.headers).map fun p => ((p.1 : ℤ), (p.2 : ℤ)),
    16 * pkt.headers.length + (strings pkt.headers).length⟩

theorem layout_imageRef {pkt : Packet} {buf : Buf} (h : m.At buf.data (pkt.image buf.data))
    (hfit : buf.data + (pkt.image buf.data).length ≤ addressSpace) :
    (pkt.imageRef buf.data).layout m buf = pkt.layout := by
  obtain ⟨hidx, -, -⟩ := at_image.mp h
  have himage : (pkt.image buf.data).length =
      16 * pkt.headers.length + (strings pkt.headers).length + pkt.payload.length := by
    simp only [image, List.length_append, length_index]
  simp only [PacketRef.layout, imageRef, layout, pointers_index hidx (by omega), addresses_sub,
    Layout.mk.injEq, true_and]
  push_cast
  constructor <;> ring

/-! ### What a deep copy stores -/

theorem deepCopyHeader_wpc (hd : 16 * (i + 1) ≤ off) :
    (deepCopyHeader out i off hdr).wpc
      (fun t => Mem.SameOutside₂ (out + 16 * i) 16 (out + off) (headerSize hdr) m t)
      (fun r t => r = (i + 1, off + headerSize hdr) ∧
        HeaderStored m (out + 16 * i) (out + off) (out + off) hdr t) m := by
  have hhdr : headerSize hdr = hdr.key.bytes.length + 1 + (hdr.val.bytes.length + 1) := rfl
  have hk := hdr.key.length_terminated
  have hv := hdr.val.length_terminated
  simp only [deepCopyHeader, wpc_bind, wpc_pure]
  refine string_wpc (by omega) (fun t ht => ?_) fun t ht => ?_
  · exact ht.mono le_rfl (by omega) le_rfl (by omega)
  rw [← Nat.add_assoc out off]
  refine string_wpc (by omega) (fun u hu => ?_) fun u hu => ⟨?_, .of_strings (by omega) ht hu⟩
  · exact (ht.1.mono le_rfl (by omega) le_rfl (by omega)).trans
      (hu.mono (by omega) (by omega) (by omega) (by omega))
  · rw [Nat.add_assoc off, ← hhdr]

theorem deepCopyBlock_wpc (hd : 16 * (i + hdrs.length) ≤ off) :
    (deepCopyBlock out hdrs i off).wpc
      (fun t => Mem.SameOutside₂ (out + 16 * i) (16 * hdrs.length) (out + off) (strings hdrs).length m t)
      (fun r t => r = (i + hdrs.length, off + (strings hdrs).length) ∧
        Stored m (out + 16 * i) (out + off) (out + off) hdrs t) m := by
  induction hdrs generalizing i off m with
  | nil => exact wpc_pure.mpr ⟨rfl, stored_nil⟩
  | cons hdr hdrs ih =>
    rw [List.length_cons] at hd ⊢
    rw [length_strings_cons]
    simp only [deepCopyBlock, wpc_bind]
    refine wpc_mono (deepCopyHeader_wpc (by omega)) (fun t ht => ?_) ?_
    · exact ht.mono le_rfl (by omega) le_rfl (by omega)
    rintro _ t ⟨rfl, ht⟩
    refine wpc_mono (ih (by omega)) (fun u hu => ?_) ?_
    · exact (ht.1.mono le_rfl (by omega) le_rfl (by omega)).trans
        (hu.mono (by omega) (by omega) (by omega) (by omega))
    rintro r u ⟨hr, hu⟩
    constructor
    · rw [hr, Prod.mk.injEq]
      omega
    · rw [Nat.mul_add, Nat.mul_one, ← Nat.add_assoc, ← Nat.add_assoc] at hu
      exact .cons (by omega) ht hu

/-- The blocks are as good as one. -/
theorem deepCopyBlock_append (hdrs hdrs' : List PacketHeader) (i off : ℕ) :
    deepCopyBlock out (hdrs ++ hdrs') i off =
      deepCopyBlock out hdrs i off >>= fun r => deepCopyBlock out hdrs' r.1 r.2 := by
  induction hdrs generalizing i off with
  | nil => simp [deepCopyBlock]
  | cons hdr hdrs ih => simp [deepCopyBlock, ih]

theorem deepCopyBlocks_eq (blocks : List (List PacketHeader)) (i off : ℕ) :
    deepCopyBlocks out blocks i off = deepCopyBlock out blocks.flatten i off := by
  induction blocks generalizing i off with
  | nil => rfl
  | cons block blocks ih => simp [deepCopyBlocks, deepCopyBlock_append, ih]

variable {pkt : Packet}

/-- A deep copy stores the image of the packet, and at each store has touched nothing
outside its buffer. -/
theorem deepCopyTo_wpc (pkt : Packet) (out : ℕ) :
    (pkt.deepCopyTo out).wpc (fun t => Mem.SameOutside out (pkt.image out).length m t)
      (fun r t => Mem.SameOutside out (pkt.image out).length m t ∧ t.At out (pkt.image out) ∧
        r = pkt.imageRef out) m := by
  have himage : (pkt.image out).length =
      16 * pkt.headers.length + (strings pkt.headers).length + pkt.payload.length := by
    simp only [image, List.length_append, length_index]
  have hblocks : pkt.headersBlock.flatten = pkt.headers := rfl
  have hidx : (index (out + 16 * pkt.headers.length) pkt.headers).length = _ := length_index
  simp only [deepCopyTo, deepCopyBlocks_eq, hblocks, stats_numHdrs, wpc_bind, wpc_pure, at_image,
    Nat.mul_comm _ 16]
  generalize (pkt.image out).length = n at himage ⊢
  have hin : ∀ t, Mem.SameOutside₂ (out + 16 * 0) (16 * pkt.headers.length) (out + 16 * pkt.headers.length)
      (strings pkt.headers).length m t → Mem.SameOutside out n m t :=
    fun t ht x hx => ht x (by omega) (by omega)
  refine wpc_mono (deepCopyBlock_wpc (by omega)) hin ?_
  rintro r t ⟨hr, hs, hi, hc⟩
  subst hr
  have hm := hin t hs
  refine wpc_mono memcpy_wpc (fun u hu => hm.trans (hu.mono (by omega) (by omega))) ?_
  rintro _ u ⟨hu, hb⟩
  exact ⟨hm.trans (hu.mono (by omega) (by omega)), ⟨hu.at (by omega) hi, hu.at (by omega) hc, hb⟩, rfl⟩

/-! ### The two layouts -/

variable {alloc alloc' : Alloc} {flat buf buf' out out' : Buf}

/-- `a0_packet_deep_copy`, with a buffer of the size asked for. -/
theorem deepCopy_spec (out : Buf) (h : Gives alloc m (pkt.stats.numHdrs * 16 + pkt.stats.contentSize) buf) :
    (pkt.deepCopy alloc out).eval m = some (pkt.imageRef buf.data, buf) ∧
      ((pkt.deepCopy alloc out).exec m).At buf.data (pkt.image buf.data) ∧
      ∀ t, (pkt.deepCopy alloc out).Crash m t →
        (alloc (pkt.stats.numHdrs * 16 + pkt.stats.contentSize)).Crash m t ∨
        Mem.SameOutside buf.data buf.size
          ((alloc (pkt.stats.numHdrs * 16 + pkt.stats.contentSize)).exec m) t := by
  have hw := pkt.deepCopyTo_wpc buf.data
    (m := (alloc (pkt.stats.numHdrs * 16 + pkt.stats.contentSize)).exec m)
  rw [length_image.trans h.size.symm] at hw
  obtain ⟨-, hat, hr⟩ := post_of_wpc hw
  refine ⟨?_, ?_, fun t => crash_alloc (Q := fun _ _ => True) h.eval ?_⟩
  · simp only [deepCopy, eval_bind, h.eval, eval_pure, hr]
  · simp only [deepCopy, exec_bind, h.eval, exec_pure]
    exact hat
  · simp only [wpc_bind, wpc_pure]
    exact wpc_mono hw (fun _ ht => ht) fun _ _ _ => trivial

/-- **Deep copies and serialized packets**. A deep copy, and deserializing what has been
serialized, ask for one number of bytes, whatever the allocators are. In the buffers
that they are given, they hold the same, have each key and value and the payload at the
same offsets, and at no store have touched anything outside. -/
theorem deepCopy_agrees (h : Gives alloc m pkt.stats.serialSize flat) :
    (pkt.serialize alloc out).eval m = some (.ok flat) ∧
    ∀ m₁ m₂ out₁ out₂ n, n = pkt.stats.numHdrs * 16 + pkt.stats.contentSize →
      m₁.loadBytes flat.data flat.size = ((pkt.serialize alloc out).exec m).loadBytes flat.data flat.size →
      Requests (fun alloc => deserialize flat alloc out₁) m₁ n ∧
      Requests (fun alloc => pkt.deepCopy alloc out₂) m₂ n ∧
      ∀ alloc₁ alloc₂ buf₁ buf₂, Gives alloc₁ m₁ n buf₁ → Gives alloc₂ m₂ n buf₂ →
        flat.Apart buf₁.data n →
        ((alloc₁ n).exec m₁).loadBytes flat.data flat.size = m₁.loadBytes flat.data flat.size →
        ∃ ref₁ ref₂, (deserialize flat alloc₁ out₁).eval m₁ = some (ref₁, buf₁) ∧
          (pkt.deepCopy alloc₂ out₂).eval m₂ = some (ref₂, buf₂) ∧
          ref₁.contents ((deserialize flat alloc₁ out₁).exec m₁) = some pkt.contents ∧
          ref₂.contents ((pkt.deepCopy alloc₂ out₂).exec m₂) = some pkt.contents ∧
          ref₁.layout ((deserialize flat alloc₁ out₁).exec m₁) buf₁ =
            ref₂.layout ((pkt.deepCopy alloc₂ out₂).exec m₂) buf₂ ∧
          (∀ t, (deserialize flat alloc₁ out₁).Crash m₁ t → (alloc₁ n).Crash m₁ t ∨
            Mem.SameOutside buf₁.data n ((alloc₁ n).exec m₁) t) ∧
          ∀ t, (pkt.deepCopy alloc₂ out₂).Crash m₂ t → (alloc₂ n).Crash m₂ t ∨
            Mem.SameOutside buf₂.data n ((alloc₂ n).exec m₂) t := by
  obtain ⟨heval, hat, -⟩ := serialize_spec out h
  refine ⟨heval, ?_⟩
  rintro m₁ m₂ out₁ out₂ n rfl hsame
  have hlen : pkt.wire.length = flat.size := length_wire.trans h.size.symm
  have hfits := h.fits
  rw [Mem.At, hlen] at hat
  have hflat : m₁.At flat.data pkt.wire := by rw [Mem.At, hlen, hsame, hat]
  have hstats : flatStats m₁ flat = pkt.stats := flatStats_eq hflat hlen.symm (by omega)
  refine ⟨?_, .alloc, ?_⟩
  · unfold deserialize
    refine .read (.read ?_)
    rw [hstats]
    exact .alloc
  intro alloc₁ alloc₂ buf₁ buf₂ h₁ h₂ hap hkeep
  have hsize₁ : buf₁.data + (pkt.image buf₁.data).length ≤ addressSpace := by
    rw [length_image, ← h₁.size]
    exact h₁.fits.le
  have hsize₂ : buf₂.data + (pkt.image buf₂.data).length ≤ addressSpace := by
    rw [length_image, ← h₂.size]
    exact h₂.fits.le
  obtain ⟨heval₁, hcontents₁, hat₁, hcrash₁⟩ := deserialize_spec out₁ hflat hlen.symm (by omega) h₁
    (by rw [Mem.At, hlen, hkeep, hsame, hat]) (by rwa [h₁.size])
  obtain ⟨heval₂, hat₂, hcrash₂⟩ := deepCopy_spec out₂ h₂
  refine ⟨_, _, heval₁, heval₂, hcontents₁, contents_imageRef hat₂ hsize₂, ?_, ?_, ?_⟩
  · rw [layout_imageRef hat₁ hsize₁, layout_imageRef hat₂ hsize₂]
  · rwa [h₁.size] at hcrash₁
  · rwa [h₂.size] at hcrash₂

/-- A packet with an empty block, and an empty value, serialized at 0, deserialized to 200,
and copied to 300. -/
theorem deepCopy_agrees_small :
    let pkt : Packet :=
      ⟨⟨List.replicate 37 97, rfl⟩, [[], [⟨⟨[107], by decide⟩, ⟨[], by decide⟩⟩]], [1, 0]⟩
    let alloc (a : ℕ) : Alloc := fun n => pure (some (.ok ⟨a, n⟩))
    let m := (pkt.serialize (alloc 0) ⟨0, 0⟩).exec fun _ => 0
    ∃ ref₁ ref₂, (deserialize ⟨0, 74⟩ (alloc 200) ⟨0, 0⟩).eval m = some (ref₁, ⟨200, 21⟩) ∧
      (pkt.deepCopy (alloc 300) ⟨0, 0⟩).eval m = some (ref₂, ⟨300, 21⟩) ∧
      ref₁.layout ((deserialize ⟨0, 74⟩ (alloc 200) ⟨0, 0⟩).exec m) ⟨200, 21⟩ =
        ref₂.layout ((pkt.deepCopy (alloc 300) ⟨0, 0⟩).exec m) ⟨300, 21⟩ := by
  intro pkt alloc m
  have h : Gives (alloc 0) (fun _ => 0) pkt.stats.serialSize ⟨0, 74⟩ := ⟨rfl, rfl, by decide⟩
  have h₁ : Gives (alloc 200) m 21 ⟨200, 21⟩ := ⟨rfl, rfl, by decide⟩
  have h₂ : Gives (alloc 300) m 21 ⟨300, 21⟩ := ⟨rfl, rfl, by decide⟩
  have hkeep (t : Mem) : (alloc 200 21).exec t = t := rfl
  obtain ⟨-, -, hsame⟩ := (deepCopy_agrees h).2 m m ⟨0, 0⟩ ⟨0, 0⟩ 21 rfl rfl
  obtain ⟨ref₁, ref₂, heval₁, heval₂, -, -, hlayout, -⟩ := hsame _ _ _ _ h₁ h₂ (.inr (by decide))
    (by rw [hkeep])
  exact ⟨ref₁, ref₂, heval₁, heval₂, hlayout⟩

end Packet

end AlephZero
