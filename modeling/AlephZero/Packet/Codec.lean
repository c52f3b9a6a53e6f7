import AlephZero.Packet.Basic
import Mathlib.Algebra.BigOperators.Group.List.Basic

/-!
# The packet codec

## The model

`Packet.wire` is the serialization format, as bytes, and `Packet.image` what
deserializing a packet leaves in its buffer: the array of headers, the strings, and
the payload. In both an index of offsets or of addresses stands in front of the
strings (`index`).

## What is proved

* `serializeTo_wpc` — serializing stores the wire format to its buffer, and nothing
  outside.
* `deserializeTo_wpc` — deserializing it stores the image, which gives back what the
  packet holds.
* **`codec_round_trip`** — the two together, for any allocators.
-/

namespace AlephZero

open ByteMem StoreProg Prog

variable {m t : Mem} {hdr : PacketHeader} {hdrs : List PacketHeader} {out i off : ℕ}

/-! ### The format -/

/-- The strings of headers. -/
def strings : List PacketHeader → List UInt8
  | [] => []
  | hdr :: hdrs => hdr.key.terminated ++ hdr.val.terminated ++ strings hdrs

/-- Where the strings are, when they stand from `off` on. -/
def index : ℕ → List PacketHeader → List UInt8
  | _, [] => []
  | off, hdr :: hdrs => leBytes 8 off ++ leBytes 8 (off + (hdr.key.bytes.length + 1)) ++
      index (off + Packet.headerSize hdr) hdrs

@[simp] theorem CString.length_terminated (s : CString) : s.terminated.length = s.bytes.length + 1 := by
  simp [terminated]

theorem length_strings_cons :
    (strings (hdr :: hdrs)).length = Packet.headerSize hdr + (strings hdrs).length := by
  simp [strings, Packet.headerSize, Nat.add_assoc]

@[simp] theorem length_index : (index off hdrs).length = 16 * hdrs.length := by
  induction hdrs generalizing off with
  | nil => rfl
  | cons hdr hdrs ih => simp [index, ih]; omega

theorem length_strings : (strings hdrs).length = (hdrs.map Packet.headerSize).sum := by
  induction hdrs with
  | nil => rfl
  | cons hdr hdrs ih => rw [length_strings_cons, ih, List.map_cons, List.sum_cons]

namespace Packet

variable {pkt : Packet}

/-- Where the content begins in the wire format. -/
def contentOff (pkt : Packet) : ℕ := 53 + 16 * pkt.headers.length

/-- Where the payload begins. -/
def payloadOff (pkt : Packet) : ℕ := pkt.contentOff + (strings pkt.headers).length

/-- The serialization format. -/
def wire (pkt : Packet) : List UInt8 :=
  pkt.id.bytes ++ leBytes 8 pkt.headers.length ++ index pkt.contentOff pkt.headers ++
    leBytes 8 pkt.payloadOff ++ strings pkt.headers ++ pkt.payload

/-- The buffer of a deserialized packet that begins at `out`. -/
def image (pkt : Packet) (out : ℕ) : List UInt8 :=
  index (out + 16 * pkt.headers.length) pkt.headers ++ strings pkt.headers ++ pkt.payload

theorem contents_eq :
    pkt.contents = ⟨pkt.id.bytes, pkt.headers.map PacketHeader.contents, pkt.payload⟩ := rfl

theorem stats_numHdrs : pkt.stats.numHdrs = pkt.headers.length := by
  rw [headers, List.length_flatten]
  rfl

theorem stats_contentSize :
    pkt.stats.contentSize = (strings pkt.headers).length + pkt.payload.length := by
  rw [length_strings, headers]
  simp [stats, List.sum_flatten, List.map_flatten, Function.comp_def]

theorem stats_serialSize : pkt.stats.serialSize = pkt.payloadOff + pkt.payload.length := by
  have hs : pkt.stats.serialSize = 53 + 2 * pkt.stats.numHdrs * 8 + pkt.stats.contentSize := by
    simp only [stats]; omega
  rw [hs, stats_numHdrs, stats_contentSize, payloadOff, contentOff]
  omega

theorem length_wire : pkt.wire.length = pkt.stats.serialSize := by
  rw [stats_serialSize]
  simp only [wire, payloadOff, contentOff, List.length_append, pkt.id.length_eq, length_leBytes,
    length_index]
  omega

theorem length_image : (pkt.image out).length = pkt.stats.numHdrs * 16 + pkt.stats.contentSize := by
  rw [stats_numHdrs, stats_contentSize]
  simp only [image, List.length_append, length_index]
  omega

end Packet

/-! ### Stores of strings -/

/-- A word of an index, and a string behind the index. -/
def StringStored (m : Mem) (ptr w dst : ℕ) (str : List UInt8) (t : Mem) : Prop :=
  Mem.SameOutside₂ ptr 8 dst str.length m t ∧ t.At ptr (leBytes 8 w) ∧ t.At dst str

/-- The two stores for a string. -/
theorem string_wpc {ptr w dst : ℕ} {str : List UInt8} {D : Mem → Prop} {R : Unit → Mem → Prop}
    (hd : ptr + 8 ≤ dst) (hD : ∀ t, Mem.SameOutside₂ ptr 8 dst str.length m t → D t)
    (hR : ∀ t, StringStored m ptr w dst str t → R () t) :
    (storeWord ptr w).wpc D (fun _ t => (memcpy dst str).wpc D R t) m := by
  refine wpc_mono storeWord_wpc (fun t ht => hD t (ht.fst le_rfl le_rfl)) fun _ t ⟨hs, hw⟩ => ?_
  have hm : Mem.SameOutside₂ ptr 8 dst str.length m t := hs.fst le_rfl le_rfl
  refine wpc_mono memcpy_wpc (fun u hu => hD u (hm.trans (hu.snd le_rfl le_rfl))) fun _ u ⟨hu, hstr⟩ => ?_
  exact hR u ⟨hm.trans (hu.snd le_rfl le_rfl), hu.at (.inr (by simp; omega)) hw, hstr⟩

/-- The key and the value of a header are stored. -/
def HeaderStored (m : Mem) (a dst off : ℕ) (hdr : PacketHeader) (t : Mem) : Prop :=
  Mem.SameOutside₂ a 16 dst (Packet.headerSize hdr) m t ∧
    t.At a (leBytes 8 off ++ leBytes 8 (off + (hdr.key.bytes.length + 1))) ∧
    t.At dst (hdr.key.terminated ++ hdr.val.terminated)

/-- The key first, and then the value. -/
theorem HeaderStored.of_strings {a dst : ℕ} {m t u : Mem} (hd : a + 16 ≤ dst)
    (h : StringStored m a off dst hdr.key.terminated t)
    (h' : StringStored t (a + 8) (off + (hdr.key.bytes.length + 1)) (dst + (hdr.key.bytes.length + 1))
      hdr.val.terminated u) : HeaderStored m a dst off hdr u := by
  obtain ⟨hs, hw, hk⟩ := h
  obtain ⟨hs', hw', hv⟩ := h'
  rw [CString.length_terminated] at hs hs'
  refine ⟨?_, Mem.at_append.mpr ⟨hs'.at ?_ ?_ hw, ?_⟩, Mem.at_append.mpr ⟨hs'.at ?_ ?_ hk, ?_⟩⟩
  · unfold Packet.headerSize
    exact (hs.mono le_rfl (by omega) le_rfl (by omega)).trans
      (hs'.mono (by omega) (by omega) (by omega) (by omega))
  all_goals simp only [length_leBytes, CString.length_terminated]
  · omega
  · omega
  · exact hw'
  · omega
  · omega
  · exact hv

/-- What a loop over headers stores: their index from `a` on, and their strings from
`dst` on. -/
def Stored (m : Mem) (a dst off : ℕ) (hdrs : List PacketHeader) (t : Mem) : Prop :=
  Mem.SameOutside₂ a (16 * hdrs.length) dst (strings hdrs).length m t ∧
    t.At a (index off hdrs) ∧ t.At dst (strings hdrs)

theorem stored_nil {a dst off : ℕ} : Stored m a dst off [] m :=
  ⟨.refl _ _ _ _ m, Mem.at_nil m _, Mem.at_nil m _⟩

/-- A header first, and then the others. -/
theorem Stored.cons {a dst : ℕ} {m t u : Mem} (hd : a + 16 * (hdrs.length + 1) ≤ dst)
    (h : HeaderStored m a dst off hdr t)
    (hr : Stored t (a + 16) (dst + Packet.headerSize hdr) (off + Packet.headerSize hdr) hdrs u) :
    Stored m a dst off (hdr :: hdrs) u := by
  obtain ⟨hs, hi, hc⟩ := h
  obtain ⟨hs', hi', hc'⟩ := hr
  refine ⟨?_, Mem.at_append.mpr ⟨hs'.at ?_ ?_ hi, ?_⟩, Mem.at_append.mpr ⟨hs'.at ?_ ?_ hc, ?_⟩⟩
  · rw [length_strings_cons, List.length_cons]
    exact (hs.mono le_rfl (by omega) le_rfl (by omega)).trans
      (hs'.mono (by omega) (by omega) (by omega) (by omega))
  all_goals simp only [List.length_append, length_leBytes, CString.length_terminated]
  · omega
  · omega
  · exact hi'
  · omega
  · unfold Packet.headerSize; omega
  · exact hc'

/-! ### Serializing -/

namespace Packet

theorem serializeHeader_wpc (hd : i + 16 ≤ off) :
    (serializeHeader out i off hdr).wpc
      (fun t => Mem.SameOutside₂ (out + i) 16 (out + off) (headerSize hdr) m t)
      (fun r t => r = (i + 16, off + headerSize hdr) ∧ HeaderStored m (out + i) (out + off) off hdr t)
      m := by
  have hk := hdr.key.length_terminated
  have hv := hdr.val.length_terminated
  simp only [serializeHeader, wpc_bind, wpc_pure]
  refine string_wpc (by omega) (fun t ht => ?_) fun t ht => ?_
  · exact ht.mono le_rfl (by omega) le_rfl (by unfold headerSize; omega)
  rw [← Nat.add_assoc out i 8, ← Nat.add_assoc out off]
  refine string_wpc (by omega) (fun u hu => ?_) fun u hu => ⟨?_, .of_strings (by omega) ht hu⟩
  · refine (ht.1.mono le_rfl (by omega) le_rfl ?_).trans (hu.mono (by omega) (by omega) (by omega) ?_)
    all_goals unfold headerSize; omega
  · unfold headerSize
    rw [Nat.add_assoc off]

theorem serializeBlock_wpc (hd : i + 16 * hdrs.length ≤ off) :
    (serializeBlock out hdrs i off).wpc
      (fun t => Mem.SameOutside₂ (out + i) (16 * hdrs.length) (out + off) (strings hdrs).length m t)
      (fun r t => r = (i + 16 * hdrs.length, off + (strings hdrs).length) ∧
        Stored m (out + i) (out + off) off hdrs t) m := by
  induction hdrs generalizing i off m with
  | nil => exact wpc_pure.mpr ⟨rfl, stored_nil⟩
  | cons hdr hdrs ih =>
    rw [List.length_cons] at hd ⊢
    rw [length_strings_cons]
    simp only [serializeBlock, wpc_bind]
    refine wpc_mono (serializeHeader_wpc (by omega)) (fun t ht => ?_) ?_
    · exact ht.mono le_rfl (by omega) le_rfl (by omega)
    rintro _ t ⟨rfl, ht⟩
    refine wpc_mono (ih (by omega)) (fun u hu => ?_) ?_
    · exact (ht.1.mono le_rfl (by omega) le_rfl (by omega)).trans
        (hu.mono (by omega) (by omega) (by omega) (by omega))
    rintro r u ⟨hr, hu⟩
    constructor
    · rw [hr, Prod.mk.injEq]
      omega
    · exact .cons (by omega) ht (by rwa [Nat.add_assoc, Nat.add_assoc])

/-- The blocks are as good as one. -/
theorem serializeBlock_append (hdrs hdrs' : List PacketHeader) (i off : ℕ) :
    serializeBlock out (hdrs ++ hdrs') i off =
      serializeBlock out hdrs i off >>= fun r => serializeBlock out hdrs' r.1 r.2 := by
  induction hdrs generalizing i off with
  | nil => simp [serializeBlock]
  | cons hdr hdrs ih => simp [serializeBlock, ih]

theorem serializeBlocks_eq (blocks : List (List PacketHeader)) (i off : ℕ) :
    serializeBlocks out blocks i off = serializeBlock out blocks.flatten i off := by
  induction blocks generalizing i off with
  | nil => rfl
  | cons block blocks ih => simp [serializeBlocks, serializeBlock_append, ih]

/-- The parts of the wire format. -/
theorem at_wire {pkt : Packet} : m.At out pkt.wire ↔ m.At out pkt.id.bytes ∧
    m.At (out + 37) (leBytes 8 pkt.headers.length) ∧
    m.At (out + 45) (index pkt.contentOff pkt.headers) ∧
    m.At (out + (45 + 16 * pkt.headers.length)) (leBytes 8 pkt.payloadOff) ∧
    m.At (out + pkt.contentOff) (strings pkt.headers) ∧ m.At (out + pkt.payloadOff) pkt.payload := by
  have hcon : 37 + 8 + 16 * pkt.headers.length + 8 = pkt.contentOff := by unfold contentOff; omega
  simp only [wire, Mem.at_append, and_assoc, List.length_append, pkt.id.length_eq, length_leBytes,
    length_index, hcon, payloadOff]

/-- Serializing stores the wire format, and at each store has touched nothing outside
its buffer. -/
theorem serializeTo_wpc (pkt : Packet) (out : ℕ) :
    (pkt.serializeTo out).wpc (fun t => Mem.SameOutside out pkt.wire.length m t)
      (fun _ t => Mem.SameOutside out pkt.wire.length m t ∧ t.At out pkt.wire) m := by
  have hid := pkt.id.length_eq
  have hpay : pkt.payloadOff = pkt.contentOff + (strings pkt.headers).length := rfl
  have hcon : pkt.contentOff = 53 + 16 * pkt.headers.length := rfl
  have hblocks : pkt.headersBlock.flatten = pkt.headers := rfl
  have hwire := pkt.length_wire
  rw [stats_serialSize] at hwire
  simp only [serializeTo, serializeBlocks_eq, hblocks, stats_numHdrs, wpc_bind, at_wire,
    show 37 + 8 + 2 * pkt.headers.length * 8 + 8 = pkt.contentOff by omega]
  generalize pkt.wire.length = n at hwire ⊢
  refine wpc_mono memcpy_wpc (fun t ht => ht.mono le_rfl (by omega)) ?_
  rintro _ t₁ ⟨hs₁, hb₁⟩
  have hm₁ : Mem.SameOutside out n m t₁ := hs₁.mono le_rfl (by omega)
  refine wpc_mono storeWord_wpc (fun t ht => hm₁.trans (ht.mono (by omega) (by omega))) ?_
  rintro _ t₂ ⟨hs₂, hb₂⟩
  have hm₂ : Mem.SameOutside out n m t₂ := hm₁.trans (hs₂.mono (by omega) (by omega))
  have hin : ∀ t, Mem.SameOutside₂ (out + (37 + 8)) (16 * pkt.headers.length) (out + pkt.contentOff)
      (strings pkt.headers).length t₂ t → Mem.SameOutside out n t₂ t :=
    fun t ht x hx => ht x (by omega) (by omega)
  refine wpc_mono (serializeBlock_wpc (by omega)) (fun t ht => hm₂.trans (hin t ht)) ?_
  rintro r t₃ ⟨hr, hs₃, hi₃, hc₃⟩
  subst hr
  have hm₃ := hm₂.trans (hin t₃ hs₃)
  refine wpc_mono storeWord_wpc (fun t ht => hm₃.trans (ht.mono (by omega) (by omega))) ?_
  rintro _ t₄ ⟨hs₄, hb₄⟩
  have hm₄ : Mem.SameOutside out n m t₄ := hm₃.trans (hs₄.mono (by omega) (by omega))
  refine wpc_mono memcpy_wpc (fun t ht => hm₄.trans (ht.mono (by omega) (by omega))) ?_
  rintro _ t₅ ⟨hs₅, hb₅⟩
  have hnum := length_leBytes 8 pkt.headers.length
  have hoff := length_leBytes 8 pkt.payloadOff
  have hidx : (index pkt.contentOff pkt.headers).length = _ := length_index
  -- each part is as it was when it was stored
  refine ⟨hm₄.trans (hs₅.mono (by omega) (by omega)), ?_, ?_, ?_, ?_, ?_, hb₅⟩
  · exact hs₅.at (by omega) (hs₄.at (by omega) (hs₃.at (by omega) (by omega) (hs₂.at (by omega) hb₁)))
  · exact hs₅.at (by omega) (hs₄.at (by omega) (hs₃.at (by omega) (by omega) hb₂))
  · exact hs₅.at (by omega) (hs₄.at (by omega) hi₃)
  · exact hs₅.at (by omega) hb₄
  · exact hs₅.at (by omega) (hs₄.at (by omega) hc₃)

end Packet

/-! ### Deserializing -/

/-- A C string and its terminating null are read back. -/
theorem CString.cstr_eq {s : CString} {a : ℕ} (h : m.At a s.terminated) (hs : s.bytes.length < addressSpace) :
    m.cstr addressSpace a = some s.bytes :=
  Mem.cstr_of_at h s.nonNull hs

theorem word_lt_iff {n : ℕ} : n < 256 ^ 8 ↔ n < addressSpace := by
  rw [addressSpace]
  norm_num

/-- A string is read from where an index says, and stored with its address. -/
theorem deserializeString_wpc {fpkt : Buf} {s : CString} {idx ptr writePtr : ℕ}
    (hidx : m.At idx (leBytes 8 off)) (hstr : m.At (fpkt.data + off) s.terminated)
    (hoff : off < addressSpace) (hlen : s.bytes.length < addressSpace) (hd : ptr + 8 ≤ writePtr)
    (happart : ptr + 8 ≤ fpkt.data + off ∨ fpkt.data + off + (s.bytes.length + 1) ≤ ptr) :
    (deserializeString fpkt idx ptr writePtr).wpc
      (fun t => Mem.SameOutside₂ ptr 8 writePtr (s.bytes.length + 1) m t)
      (fun r t => r = some (writePtr + (s.bytes.length + 1)) ∧
        StringStored m ptr writePtr writePtr s.terminated t) m := by
  have hs := s.length_terminated
  simp only [deserializeString, wpc_bind, wpc_read, Mem.load_of_at hidx (word_lt_iff.mpr hoff)]
  refine wpc_mono storeWord_wpc (fun t ht => ht.fst le_rfl le_rfl) ?_
  rintro _ t ⟨ht, hw⟩
  have hm : Mem.SameOutside₂ ptr 8 writePtr (s.bytes.length + 1) m t := ht.fst le_rfl le_rfl
  simp only [CString.cstr_eq (ht.at (by omega) hstr) hlen, wpc_bind, wpc_pure]
  have hcpy : (memcpy writePtr s.terminated).wpc _ _ t := memcpy_wpc
  refine wpc_mono hcpy (fun u hu => hm.trans (hu.snd le_rfl (by omega))) ?_
  rintro _ u ⟨hu, hb⟩
  refine ⟨trivial, ?_, ?_, hb⟩
  · rw [hs]
    exact hm.trans (hu.snd le_rfl (by omega))
  · exact hu.at (.inr (by simp; omega)) hw

/-- The `k` bytes from `a` are outside a buffer. -/
def Buf.Apart (buf : Buf) (a k : ℕ) : Prop := a + k ≤ buf.data ∨ buf.data + buf.size ≤ a

theorem deserializeHeaders_wpc {fpkt : Buf} {headers writePtr : ℕ}
    (hidx : m.At (fpkt.data + 45 + 16 * i) (index off hdrs)) (hstr : m.At (fpkt.data + off) (strings hdrs))
    (hi : 45 + 16 * i + 16 * hdrs.length ≤ fpkt.size) (hoff : off + (strings hdrs).length ≤ fpkt.size)
    (hsize : fpkt.size < addressSpace) (hd : headers + 16 * i + 16 * hdrs.length ≤ writePtr)
    (hh : fpkt.Apart (headers + 16 * i) (16 * hdrs.length))
    (hw : fpkt.Apart writePtr (strings hdrs).length) :
    (deserializeHeaders fpkt headers hdrs.length i writePtr).wpc
      (fun t => Mem.SameOutside₂ (headers + 16 * i) (16 * hdrs.length) writePtr (strings hdrs).length m t)
      (fun r t => r = some (writePtr + (strings hdrs).length) ∧
        Stored m (headers + 16 * i) writePtr writePtr hdrs t) m := by
  induction hdrs generalizing i off writePtr m with
  | nil => exact wpc_pure.mpr ⟨rfl, stored_nil⟩
  | cons hdr hdrs ih =>
    have hk := hdr.key.length_terminated
    have hv := hdr.val.length_terminated
    have hhdr : Packet.headerSize hdr = hdr.key.bytes.length + 1 + (hdr.val.bytes.length + 1) := rfl
    rw [index, Mem.at_append, Mem.at_append, List.length_append, length_leBytes, length_leBytes] at hidx
    rw [strings, Mem.at_append, Mem.at_append, List.length_append, hk, hv] at hstr
    rw [length_strings_cons] at hoff hw ⊢
    rw [List.length_cons] at hi hd hh ⊢
    obtain ⟨⟨hi₁, hi₂⟩, hi₃⟩ := hidx
    obtain ⟨⟨hc₁, hc₂⟩, hc₃⟩ := hstr
    rw [Nat.add_assoc fpkt.data off] at hc₂ hc₃
    rw [← hhdr] at hc₃
    rw [show fpkt.data + 45 + 16 * i + (8 + 8) = fpkt.data + 45 + 16 * (i + 1) by ring] at hi₃
    unfold Buf.Apart at hh hw
    have hl₂ := length_leBytes 8 (off + (hdr.key.bytes.length + 1))
    have hl₃ : (index (off + Packet.headerSize hdr) hdrs).length = 16 * hdrs.length := length_index
    simp only [deserializeHeaders, wpc_bind, show 8 * (2 * i) = 16 * i by ring,
      show 8 * (2 * i + 1) = 16 * i + 8 by ring, ← Nat.add_assoc (fpkt.data + 45)]
    refine wpc_mono (deserializeString_wpc hi₁ hc₁ (by omega) (by omega) (by omega) (by omega))
      (fun t ht => ht.mono le_rfl (by omega) le_rfl (by omega)) ?_
    rintro _ t ⟨rfl, ht⟩
    have hm := ht.1
    rw [hk] at hm
    simp only [wpc_bind]
    refine wpc_mono (deserializeString_wpc (hm.at (by omega) (by omega) hi₂)
      (hm.at (by omega) (by omega) hc₂) (by omega) (by omega) (by omega) (by omega))
      (fun u hu => ?_) ?_
    · exact (hm.mono le_rfl (by omega) le_rfl (by omega)).trans
        (hu.mono (by omega) (by omega) (by omega) (by omega))
    rintro _ u ⟨rfl, hu⟩
    have hhead : HeaderStored m (headers + 16 * i) writePtr writePtr hdr u := .of_strings (by omega) ht hu
    have hm' := hhead.1
    rw [Nat.add_assoc writePtr, ← hhdr]
    refine wpc_mono (ih (hm'.at (by omega) (by omega) hi₃) (hm'.at (by omega) (by omega) hc₃)
      (by omega) (by omega) (by omega) (by unfold Buf.Apart; omega) (by unfold Buf.Apart; omega))
      (fun v hv => ?_) ?_
    · exact (hm'.mono le_rfl (by omega) le_rfl (by omega)).trans
        (hv.mono (by omega) (by omega) (by omega) (by omega))
    rintro r v ⟨hr, hv⟩
    constructor
    · rw [hr, Nat.add_assoc]
    · exact .cons (by omega) hhead (by rwa [Nat.add_assoc, ← Nat.mul_succ])

/-! ### Reading a packet by reference -/

theorem readHeaders_eq {a : ℕ} (hidx : m.At a (index off hdrs)) (hstr : m.At off (strings hdrs))
    (hfit : off + (strings hdrs).length ≤ addressSpace) :
    readHeaders m hdrs.length a = some (hdrs.map PacketHeader.contents) := by
  induction hdrs generalizing a off with
  | nil => rfl
  | cons hdr hdrs ih =>
    have hhdr : Packet.headerSize hdr = hdr.key.bytes.length + 1 + (hdr.val.bytes.length + 1) := rfl
    rw [index, Mem.at_append, Mem.at_append, List.length_append, length_leBytes, length_leBytes] at hidx
    rw [strings, Mem.at_append, Mem.at_append, List.length_append, CString.length_terminated,
      CString.length_terminated] at hstr
    rw [length_strings_cons] at hfit
    obtain ⟨⟨hi₁, hi₂⟩, hi₃⟩ := hidx
    obtain ⟨⟨hc₁, hc₂⟩, hc₃⟩ := hstr
    rw [List.length_cons, readHeaders, Mem.load_of_at hi₁ (word_lt_iff.mpr (by omega)),
      Mem.load_of_at hi₂ (word_lt_iff.mpr (by omega)), CString.cstr_eq hc₁ (by omega),
      CString.cstr_eq hc₂ (by omega), ih hi₃ hc₃ (by omega)]
    rfl

/-! ### The whole packet -/

namespace Packet

variable {pkt : Packet} {fpkt : Buf}

/-- What a flat packet says of itself. -/
theorem flatStats_eq (h : m.At fpkt.data pkt.wire) (hs : fpkt.size = pkt.wire.length)
    (hfit : pkt.wire.length < addressSpace) : flatStats m fpkt = pkt.stats := by
  obtain ⟨-, hn, -⟩ := at_wire.mp h
  have hlen := pkt.length_wire
  have hser := pkt.stats_serialSize
  have hpay : pkt.payloadOff = 53 + 16 * pkt.headers.length + (strings pkt.headers).length := rfl
  have hload : m.load 8 (fpkt.data + 37) = pkt.headers.length :=
    Mem.load_of_at hn (word_lt_iff.mpr (by omega))
  have hstats : pkt.stats = ⟨pkt.stats.numHdrs, pkt.stats.contentSize, pkt.stats.serialSize⟩ := rfl
  rw [flatStats, hload, hstats, stats_numHdrs, stats_contentSize, hs, hlen, hser]
  simp only [PacketStats.mk.injEq, true_and, and_true]
  omega

/-- The packet that an image at `out` is of. -/
def imageRef (pkt : Packet) (out : ℕ) : PacketRef :=
  ⟨pkt.id.bytes, out, pkt.headers.length,
    ⟨out + (16 * pkt.headers.length + (strings pkt.headers).length), pkt.payload.length⟩⟩

/-- The parts of an image. -/
theorem at_image : m.At out (pkt.image out) ↔ m.At out (index (out + 16 * pkt.headers.length) pkt.headers) ∧
    m.At (out + 16 * pkt.headers.length) (strings pkt.headers) ∧
    m.At (out + (16 * pkt.headers.length + (strings pkt.headers).length)) pkt.payload := by
  simp only [image, Mem.at_append, and_assoc, List.length_append, length_index]

/-- It gives back what the packet holds. -/
theorem contents_imageRef (h : m.At out (pkt.image out)) (hfit : out + (pkt.image out).length ≤ addressSpace) :
    (pkt.imageRef out).contents m = some pkt.contents := by
  obtain ⟨hidx, hstr, hpayload⟩ := at_image.mp h
  have himage : (pkt.image out).length =
      16 * pkt.headers.length + (strings pkt.headers).length + pkt.payload.length := by
    simp only [image, List.length_append, length_index]
  simp only [PacketRef.contents, imageRef]
  rw [readHeaders_eq hidx hstr (by omega), hpayload]
  rfl

/-- Deserializing stores the image of the packet, and at each store has touched nothing
outside its buffer. -/
theorem deserializeTo_wpc (h : m.At fpkt.data pkt.wire) (hs : fpkt.size = pkt.wire.length)
    (hfit : pkt.wire.length < addressSpace)
    (hap : fpkt.Apart out (pkt.image out).length) :
    (deserializeTo fpkt pkt.id.bytes pkt.headers.length out).wpc
      (fun t => Mem.SameOutside out (pkt.image out).length m t)
      (fun r t => Mem.SameOutside out (pkt.image out).length m t ∧ t.At out (pkt.image out) ∧
        r = some (pkt.imageRef out)) m := by
  obtain ⟨-, -, hidx, hoff, hstr, hpayload⟩ := at_wire.mp h
  have hlen := pkt.length_wire
  rw [stats_serialSize] at hlen
  have hpay : pkt.payloadOff = pkt.contentOff + (strings pkt.headers).length := rfl
  have hcon : pkt.contentOff = 53 + 16 * pkt.headers.length := rfl
  have himage : (pkt.image out).length =
      pkt.headers.length * 16 + (strings pkt.headers).length + pkt.payload.length := by
    simp only [image, List.length_append, length_index]
    omega
  have hword := length_leBytes 8 pkt.payloadOff
  unfold Buf.Apart at hap
  simp only [deserializeTo, wpc_bind]
  refine wpc_mono (deserializeHeaders_wpc (i := 0) hidx hstr (by omega) (by omega) (by omega) (by omega)
    (by unfold Buf.Apart; omega) (by unfold Buf.Apart; omega)) (fun t ht x hx => ht x (by omega) (by omega)) ?_
  rintro r t ⟨hr, ht, hti, htc⟩
  subst hr
  rw [Nat.mul_zero, Nat.add_zero] at ht hti
  have hin : Mem.SameOutside out (pkt.image out).length m t := fun x hx => ht x (by omega) (by omega)
  have hrest : t.loadBytes (fpkt.data + pkt.payloadOff) (fpkt.size - pkt.payloadOff) = pkt.payload := by
    rw [show fpkt.size - pkt.payloadOff = pkt.payload.length by omega]
    exact hin.at (by omega) hpayload
  have hload : t.load 8 (fpkt.data + (37 + 8 + 2 * pkt.headers.length * 8)) = pkt.payloadOff := by
    rw [show 37 + 8 + 2 * pkt.headers.length * 8 = 45 + 16 * pkt.headers.length by omega]
    exact Mem.load_of_at (hin.at (by omega) hoff) (word_lt_iff.mpr (by omega))
  simp only [wpc_bind, wpc_read, wpc_pure, hload, hrest]
  refine wpc_mono memcpy_wpc (fun u hu => hin.trans (hu.mono (by omega) (by omega))) ?_
  rintro _ u ⟨hu, hb⟩
  have hui : u.At out (index (out + pkt.headers.length * 16) pkt.headers) :=
    hu.at (by simp only [length_index]; omega) hti
  have huc : u.At (out + pkt.headers.length * 16) (strings pkt.headers) := hu.at (by omega) htc
  refine ⟨hin.trans (hu.mono (by omega) (by omega)), ?_, ?_⟩
  · rw [at_image, Nat.mul_comm 16]
    exact ⟨hui, huc, by rwa [← Nat.add_assoc]⟩
  · rw [imageRef, show fpkt.size - pkt.payloadOff = pkt.payload.length by omega, Nat.mul_comm 16, Nat.add_assoc]

end Packet

/-! ### Any allocators -/

/-- Asked for `n` bytes, the allocator gives a buffer of exactly `n` bytes. -/
structure Gives (alloc : Alloc) (m : Mem) (n : ℕ) (buf : Buf) : Prop where
  eval : (alloc n).eval m = some (.ok buf)
  size : buf.size = n
  fits : buf.data + buf.size < addressSpace

/-- A program that begins with an allocation stores to the buffer it is given only. -/
theorem crash_alloc {alloc : Alloc} {n : ℕ} {buf : Buf} {α : Type}
    {f : Option (Except Err Buf) → Prog Mem α} {Q : α → Mem → Prop} (h : (alloc n).eval m = some (.ok buf))
    (hf : (f (some (.ok buf))).wpc (Mem.SameOutside buf.data buf.size ((alloc n).exec m)) Q
      ((alloc n).exec m)) (ht : (alloc n >>= f).Crash m t) :
    (alloc n).Crash m t ∨ Mem.SameOutside buf.data buf.size ((alloc n).exec m) t := by
  rcases crash_bind ht with ht | ht
  · exact .inl ht
  · rw [h] at ht
    exact .inr (crash_of_wpc hf (.refl _ _ _) ht)

namespace Packet

variable {pkt : Packet} {alloc : Alloc} {fpkt buf out : Buf}

/-- `a0_packet_serialize`, with a buffer of the size asked for. -/
theorem serialize_spec (out : Buf) (h : Gives alloc m pkt.stats.serialSize buf) :
    (pkt.serialize alloc out).eval m = some (.ok buf) ∧
      ((pkt.serialize alloc out).exec m).At buf.data pkt.wire ∧
      ∀ t, (pkt.serialize alloc out).Crash m t → (alloc pkt.stats.serialSize).Crash m t ∨
        Mem.SameOutside buf.data buf.size ((alloc pkt.stats.serialSize).exec m) t := by
  have hw := pkt.serializeTo_wpc buf.data (m := (alloc pkt.stats.serialSize).exec m)
  rw [length_wire.trans h.size.symm] at hw
  refine ⟨?_, ?_, fun t => crash_alloc (Q := fun _ _ => True) h.eval ?_⟩
  · simp only [serialize, eval_bind, h.eval, eval_pure]
  · simp only [serialize, exec_bind, h.eval, exec_pure]
    exact (post_of_wpc hw).2
  · simp only [wpc_bind, wpc_pure]
    exact wpc_mono hw (fun _ ht => ht) fun _ _ _ => trivial

/-- `a0_packet_deserialize` of a serialized packet, with a buffer of the size asked
for. -/
theorem deserialize_spec (out : Buf) (hflat : m.At fpkt.data pkt.wire) (hs : fpkt.size = pkt.wire.length)
    (hfit : pkt.wire.length < addressSpace)
    (h : Gives alloc m (pkt.stats.numHdrs * 16 + pkt.stats.contentSize) buf)
    (hkeep : ((alloc (pkt.stats.numHdrs * 16 + pkt.stats.contentSize)).exec m).At fpkt.data pkt.wire)
    (hap : fpkt.Apart buf.data buf.size) :
    (deserialize fpkt alloc out).eval m = some (pkt.imageRef buf.data, buf) ∧
      (pkt.imageRef buf.data).contents ((deserialize fpkt alloc out).exec m) = some pkt.contents ∧
      ((deserialize fpkt alloc out).exec m).At buf.data (pkt.image buf.data) ∧
      ∀ t, (deserialize fpkt alloc out).Crash m t →
        (alloc (pkt.stats.numHdrs * 16 + pkt.stats.contentSize)).Crash m t ∨
        Mem.SameOutside buf.data buf.size
          ((alloc (pkt.stats.numHdrs * 16 + pkt.stats.contentSize)).exec m) t := by
  have hsize : (pkt.image buf.data).length = buf.size := length_image.trans h.size.symm
  have hfits := h.fits
  have hid : m.loadBytes fpkt.data 37 = pkt.id.bytes := by
    have := (at_wire.mp hflat).1
    rwa [Mem.At, pkt.id.length_eq] at this
  have hw := deserializeTo_wpc hkeep hs hfit (by rwa [hsize])
  rw [hsize] at hw
  rw [← stats_numHdrs] at hw
  obtain ⟨-, hat, hr⟩ := post_of_wpc hw
  simp -implicitDefEqProofs only [deserialize, eval_bind, eval_read, exec_bind, exec_read, crash_read_bind, hid,
    flatStats_eq hflat hs hfit]
  refine ⟨?_, ?_, ?_, fun t => crash_alloc (Q := fun _ _ => True) h.eval ?_⟩
  · simp only [h.eval, eval_bind, hr]
    rfl
  · simp only [h.eval]
    exact contents_imageRef hat (by rw [hsize]; exact hfits.le)
  · simp only [h.eval]
    exact hat
  · simp only [wpc_bind, wpc_pure]
    exact wpc_mono hw (fun _ ht => ht) fun _ _ _ => trivial

/-- **The codec's round trip**. For any packet and any allocators that give buffers of
exactly the size asked for, serializing stores the wire format, byte by byte, to a
buffer of `serialSize` bytes, and nothing outside it but what the allocator does; and
deserializing that buffer, at once or later, gives what the packet holds, stores the
image of the packet to a buffer of exactly the size asked for, and nothing outside it. -/
theorem codec_round_trip {alloc' : Alloc} {buf' out' : Buf} (h : Gives alloc m pkt.stats.serialSize buf) :
    (pkt.serialize alloc out).eval m = some (.ok buf) ∧
    ((pkt.serialize alloc out).exec m).loadBytes buf.data pkt.stats.serialSize = pkt.wire ∧
    (∀ t, (pkt.serialize alloc out).Crash m t → (alloc pkt.stats.serialSize).Crash m t ∨
      Mem.SameOutside buf.data pkt.stats.serialSize ((alloc pkt.stats.serialSize).exec m) t) ∧
    ∀ n m', n = pkt.stats.numHdrs * 16 + pkt.stats.contentSize →
      m'.loadBytes buf.data buf.size = ((pkt.serialize alloc out).exec m).loadBytes buf.data buf.size →
      Gives alloc' m' n buf' → buf.Apart buf'.data n →
      ((alloc' n).exec m').loadBytes buf.data buf.size = m'.loadBytes buf.data buf.size →
      (∃ ref, (deserialize buf alloc' out').eval m' = some (ref, buf') ∧
        ref.contents ((deserialize buf alloc' out').exec m') = some pkt.contents) ∧
      ((deserialize buf alloc' out').exec m').loadBytes buf'.data n = pkt.image buf'.data ∧
      ∀ t, (deserialize buf alloc' out').Crash m' t → (alloc' n).Crash m' t ∨
        Mem.SameOutside buf'.data n ((alloc' n).exec m') t := by
  have hlen : pkt.wire.length = buf.size := length_wire.trans h.size.symm
  have hfits := h.fits
  obtain ⟨heval, hat, hcrash⟩ := serialize_spec out h
  rw [Mem.At, hlen] at hat
  rw [← h.size]
  refine ⟨heval, hat, ?_, ?_⟩
  · rwa [h.size] at hcrash ⊢
  rintro n m' rfl hsame hgives hap hkeep
  have hflat : m'.At buf.data pkt.wire := by rw [Mem.At, hlen, hsame, hat]
  obtain ⟨href, hcontents, himage, hcrash'⟩ := deserialize_spec out' hflat hlen.symm (by omega) hgives
    (by rw [Mem.At, hlen, hkeep, hsame, hat]) (by rwa [hgives.size])
  rw [Mem.At, length_image] at himage
  rw [hgives.size] at hcrash'
  exact ⟨⟨_, href, hcontents⟩, himage, hcrash'⟩

/-- A packet with an empty block, and an empty value, from memory at 0 to memory at 200. -/
theorem codec_round_trip_small :
    let pkt : Packet :=
      ⟨⟨List.replicate 37 97, rfl⟩, [[], [⟨⟨[107], by decide⟩, ⟨[], by decide⟩⟩]], [1, 0]⟩
    let alloc (a : ℕ) : Alloc := fun n => pure (some (.ok ⟨a, n⟩))
    let m := (pkt.serialize (alloc 0) ⟨0, 0⟩).exec fun _ => 0
    ∃ ref, (deserialize ⟨0, 74⟩ (alloc 200) ⟨0, 0⟩).eval m = some (ref, ⟨200, 21⟩) ∧
      ref.contents ((deserialize ⟨0, 74⟩ (alloc 200) ⟨0, 0⟩).exec m) = some pkt.contents := by
  intro pkt alloc m
  have h : Gives (alloc 0) (fun _ => 0) pkt.stats.serialSize ⟨0, 74⟩ := ⟨rfl, rfl, by decide⟩
  have h' : Gives (alloc 200) m 21 ⟨200, 21⟩ := ⟨rfl, rfl, by decide⟩
  have hkeep : ∀ m : Mem, ((alloc 200 21).exec m).loadBytes 0 74 = m.loadBytes 0 74 := fun _ => rfl
  exact ((codec_round_trip h).2.2.2 21 m rfl rfl h' (.inr (by decide)) (hkeep m)).1

end Packet

end AlephZero
