import AlephZero.Err
import AlephZero.Machine.ByteStores

/-!
# Packets

`packet.c`: a packet is an id, headers and a payload. Serialized, it is a run of bytes,
the flat packet, with an index of offsets in front:

    0 id   37 number of headers   45 offset of the key and of the value of each header
    offset of the payload   keys and values, with their null bytes   payload

## The model

A packet is given by what it holds: a C string is its bytes up to the null byte, the
chain of header blocks a list of lists. A flat packet, and a packet as
`a0_packet_deserialize` returns it, is a reference to a byte memory, where an array of
headers is a run of pairs of addresses. An allocator is a program that gives a buffer
or an error; neither function looks at the error, and goes on with the buffer it had
before the call. `none` as the value of an allocator is that of a loop that does not
end. Sizes are those of objects in memory, and are added up as numbers.
-/

namespace AlephZero

open ByteMem StoreProg

/-- A C string: its bytes, up to the null byte. -/
structure CString where
  bytes : List UInt8
  nonNull : 0 ∉ bytes
  deriving DecidableEq

theorem CString.ext {s t : CString} (h : s.bytes = t.bytes) : s = t := by
  cases s
  cases t
  cases h
  rfl

/-- The bytes of a string with its null byte. -/
def CString.terminated (s : CString) : List UInt8 := s.bytes ++ [0]

/-- `a0_uuid_t`. -/
structure Uuid where
  bytes : List UInt8
  length_eq : bytes.length = 37
  deriving DecidableEq

/-- `a0_packet_header_t`. -/
structure PacketHeader where
  key : CString
  val : CString
  deriving DecidableEq

/-- `a0_packet_t`. -/
structure Packet where
  id : Uuid
  /-- The chain of blocks. -/
  headersBlock : List (List PacketHeader)
  payload : List UInt8
  deriving DecidableEq

/-- `a0_buf_t`. -/
structure Buf where
  data : ℕ
  size : ℕ
  deriving DecidableEq

/-- `a0_alloc_t`, by its `alloc`. -/
abbrev Alloc := ℕ → Prog Mem (Option (Except Err Buf))

/-- `a0_packet_stats_t`. -/
structure PacketStats where
  numHdrs : ℕ
  contentSize : ℕ
  serialSize : ℕ
  deriving DecidableEq

namespace Packet

/-- The headers of all blocks. -/
def headers (pkt : Packet) : List PacketHeader := pkt.headersBlock.flatten

/-- What a header adds to the content. -/
def headerSize (hdr : PacketHeader) : ℕ := hdr.key.bytes.length + 1 + (hdr.val.bytes.length + 1)

/-- `a0_packet_stats`. -/
def stats (pkt : Packet) : PacketStats :=
  let numHdrs := (pkt.headersBlock.map List.length).sum
  let contentSize := (pkt.headersBlock.map fun block => (block.map headerSize).sum).sum + pkt.payload.length
  ⟨numHdrs, contentSize, 37 + 8 + 2 * numHdrs * 8 + 8 + contentSize⟩

/-! ### Serializing -/

/-- One turn of the inner loop of `a0_packet_serialize`: the index and the content are
written at `idxOff` and at `off`, which advance. -/
def serializeHeader (out idxOff off : ℕ) (hdr : PacketHeader) : Prog Mem (ℕ × ℕ) := do
  storeWord (out + idxOff) off
  memcpy (out + off) hdr.key.terminated
  storeWord (out + (idxOff + 8)) (off + (hdr.key.bytes.length + 1))
  memcpy (out + (off + (hdr.key.bytes.length + 1))) hdr.val.terminated
  pure (idxOff + 8 + 8, off + (hdr.key.bytes.length + 1) + (hdr.val.bytes.length + 1))

/-- The inner loop of `a0_packet_serialize`. -/
def serializeBlock (out : ℕ) : List PacketHeader → ℕ → ℕ → Prog Mem (ℕ × ℕ)
  | [], idxOff, off => pure (idxOff, off)
  | hdr :: hdrs, idxOff, off => do
    let (idxOff, off) ← serializeHeader out idxOff off hdr
    serializeBlock out hdrs idxOff off

/-- The outer loop of `a0_packet_serialize`. -/
def serializeBlocks (out : ℕ) : List (List PacketHeader) → ℕ → ℕ → Prog Mem (ℕ × ℕ)
  | [], idxOff, off => pure (idxOff, off)
  | block :: blocks, idxOff, off => do
    let (idxOff, off) ← serializeBlock out block idxOff off
    serializeBlocks out blocks idxOff off

/-- `a0_packet_serialize`, once it has its buffer. -/
def serializeTo (pkt : Packet) (out : ℕ) : Prog Mem Unit := do
  memcpy out pkt.id.bytes
  storeWord (out + 37) pkt.stats.numHdrs
  let (idxOff, off) ← serializeBlocks out pkt.headersBlock (37 + 8)
    (37 + 8 + 2 * pkt.stats.numHdrs * 8 + 8)
  storeWord (out + idxOff) off
  memcpy (out + off) pkt.payload

/-- `a0_packet_serialize`; before the call the output buffer is `out`. -/
def serialize (pkt : Packet) (alloc : Alloc) (out : Buf) : Prog Mem (Option (Except Err Buf)) := do
  let r ← alloc pkt.stats.serialSize
  match r with
  | none => pure none
  | some (.ok buf) => do
    serializeTo pkt buf.data
    pure (some (.ok buf))
  | some (.error _) => do
    -- the error is not looked at
    serializeTo pkt out.data
    pure (some (.ok out))

end Packet

/-! ### Deserializing -/

/-- No string is longer. -/
def addressSpace : ℕ := 2 ^ 64

/-- `a0_flat_packet_stats`. -/
def flatStats (m : Mem) (fpkt : Buf) : PacketStats :=
  let numHdrs := m.load 8 (fpkt.data + 37)
  ⟨numHdrs, fpkt.size - (37 + 8 + 2 * numHdrs * 8 + 8), fpkt.size⟩

/-- `a0_flat_packet_payload`. -/
def flatPacketPayload (m : Mem) (fpkt : Buf) : Buf :=
  let off := m.load 8 (fpkt.data + (37 + 8 + 2 * m.load 8 (fpkt.data + 37) * 8))
  ⟨fpkt.data + off, fpkt.size - off⟩

/-- A packet as it is returned by reference: the id, the array of headers and its
length, and the payload. There is one block. -/
structure PacketRef where
  id : List UInt8
  headers : ℕ
  size : ℕ
  payload : Buf
  deriving DecidableEq

/-- What the loop of `a0_packet_deserialize` does for the key or the value of a header:
its offset is in the index at `idx`, its address is stored at `ptr`, its bytes are
copied to `writePtr`, which advances. -/
def deserializeString (fpkt : Buf) (idx ptr writePtr : ℕ) : Prog Mem (Option ℕ) := do
  let off ← Prog.read fun m => m.load 8 idx
  storeWord ptr writePtr
  let str ← Prog.read fun m => m.cstr addressSpace (fpkt.data + off)
  match str with
  | none => pure none
  | some str => do
    memcpy writePtr (str ++ [0])
    pure (some (writePtr + (str.length + 1)))

/-- The loop of `a0_packet_deserialize`. -/
def deserializeHeaders (fpkt : Buf) (headers : ℕ) : ℕ → ℕ → ℕ → Prog Mem (Option ℕ)
  | 0, _, writePtr => pure (some writePtr)
  | n + 1, i, writePtr => do
    let r ← deserializeString fpkt (fpkt.data + 45 + 8 * (2 * i)) (headers + 16 * i) writePtr
    match r with
    | none => pure none
    | some writePtr => do
      let r ← deserializeString fpkt (fpkt.data + 45 + 8 * (2 * i + 1)) (headers + 16 * i + 8) writePtr
      match r with
      | none => pure none
      | some writePtr => deserializeHeaders fpkt headers n (i + 1) writePtr

/-- `a0_packet_deserialize`, once it has its buffer. -/
def deserializeTo (fpkt : Buf) (id : List UInt8) (numHdrs : ℕ) (out : ℕ) : Prog Mem (Option PacketRef) := do
  let r ← deserializeHeaders fpkt out numHdrs 0 (out + numHdrs * 16)
  match r with
  | none => pure none
  | some writePtr => do
    let off ← Prog.read fun m => m.load 8 (fpkt.data + (37 + 8 + 2 * numHdrs * 8))
    let payload ← Prog.read fun m => m.loadBytes (fpkt.data + off) (fpkt.size - off)
    memcpy writePtr payload
    pure (some ⟨id, out, numHdrs, ⟨writePtr, fpkt.size - off⟩⟩)

/-- `a0_packet_deserialize`; before the call the output buffer is `out`. -/
def deserialize (fpkt : Buf) (alloc : Alloc) (out : Buf) : Prog Mem (Option (PacketRef × Buf)) := do
  let id ← Prog.read fun m => m.loadBytes fpkt.data 37
  let stats ← Prog.read fun m => flatStats m fpkt
  let r ← alloc (stats.numHdrs * 16 + stats.contentSize)
  match r with
  | none => pure none
  | some r => do
    let out := match r with
      | .ok buf => buf
      | .error _ => out
    let ref ← deserializeTo fpkt id stats.numHdrs out.data
    pure (ref.map fun ref => (ref, out))

/-! ### What a packet holds -/

/-- The id, the headers of all blocks, and the payload, as bytes. -/
structure PacketContents where
  id : List UInt8
  headers : List (List UInt8 × List UInt8)
  payload : List UInt8
  deriving DecidableEq

/-- The bytes of a header. -/
def PacketHeader.contents (hdr : PacketHeader) : List UInt8 × List UInt8 := (hdr.key.bytes, hdr.val.bytes)

/-- What a packet holds. -/
def Packet.contents (pkt : Packet) : PacketContents :=
  ⟨pkt.id.bytes, pkt.headersBlock.flatten.map PacketHeader.contents, pkt.payload⟩

/-- The strings that an array of headers points to. -/
def readHeaders (m : Mem) : ℕ → ℕ → Option (List (List UInt8 × List UInt8))
  | 0, _ => some []
  | n + 1, a => do
    let key ← m.cstr addressSpace (m.load 8 a)
    let val ← m.cstr addressSpace (m.load 8 (a + 8))
    let rest ← readHeaders m n (a + 16)
    pure ((key, val) :: rest)

/-- What a packet holds that is given by reference. -/
def PacketRef.contents (m : Mem) (ref : PacketRef) : Option PacketContents :=
  (readHeaders m ref.size ref.headers).map fun headers =>
    ⟨ref.id, headers, m.loadBytes ref.payload.data ref.payload.size⟩

end AlephZero
