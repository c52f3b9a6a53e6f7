import AlephZero.Strconv
import AlephZero.Transport.Basic
import AlephZero.Writer.Chain

/-!
# Writers

`writer.c` and `middleware.c`: the write action, which allocates a frame, serializes the
packet to it and commits, and the middleware that comes with the library.

## The model

A `Host` is what a write works on: the arena, the user data of the middleware on the heap
(a counter or a flag at each address), and what the clocks say, as text. The JSON library
is a parameter (`Yyjson`). The buffer that the write action serializes to is `out` as long
as the allocator has not set it.
-/

namespace AlephZero

open ByteMem StoreProg Transport

/-- What a write works on. -/
structure Host where
  /-- The arena. -/
  mem : Mem
  /-- The user data of the middleware. -/
  heap : ℕ → ℕ
  /-- The mono time. -/
  mono : CString
  /-- The wall time. -/
  wall : CString

/-- A program on the arena. -/
def onArena {α : Type} (p : Prog Mem α) : Prog Host α := Prog.focus Host.mem (fun m h => { h with mem := m }) p

/-- A store to the heap. -/
def setHeap (a v : ℕ) : Prog Host Unit := Prog.write fun h => { h with heap := fun x => if x = a then v else h.heap x }

/-- The JSON library: `yyjson_read_max_memory_usage`, `yyjson_read_opts`,
`yyjson_merge_patch`, and `yyjson_mut_write_opts` into a buffer of some size, each with the
flags of `middleware.c`. -/
structure Yyjson (Val : Type) where
  readMaxMemoryUsage : ℕ → ℕ
  read : List UInt8 → Except String Val
  mergePatch : Val → Val → Val
  write : Val → ℕ → Except String (List UInt8)

/-! ### The write action -/

/-- `a0_transport_allocator_impl`. -/
def allocatorImpl (mode : ArenaMode) : Alloc := fun size => do
  let r ← Transport.alloc mode size
  match r with
  | none => pure none
  | some (.error e) => pure (some (.error e))
  | some (.ok off) => do
    let size ← Prog.read fun m => frameDataSize m off
    pure (some (.ok ⟨off + 40, size⟩))

/-- `a0_write_action_process_locked`. -/
def writeActionProcessLocked (mode : ArenaMode) (out : Buf) (pkt : Packet) : Prog Mem Status := do
  let r ← pkt.serialize (allocatorImpl mode) out
  match r with
  | none => pure none
  | some _ => do
    commit
    unlock mode
    pure .ok

/-- The write action of a writer on an arena in this mode. -/
def writeAction (mode : ArenaMode) (out : Buf) : WriteAction Host where
  close := pure .ok
  lock := onArena (lock mode)
  processLocked pkt := onArena (writeActionProcessLocked mode out pkt)

/-! ### Headers -/

/-- A block of one header in front of the others. -/
def Packet.addHeader (pkt : Packet) (key : String) (val : CString) : Packet :=
  { pkt with headersBlock := [⟨.ofString key, val⟩] :: pkt.headersBlock }

/-- `a0_add_time_mono_header`. -/
def addTimeMonoHeader : Leaf Host where
  processLocked := some fun pkt chain => do
    let mono ← Prog.read Host.mono
    chain (pkt.addHeader "a0_time_mono" mono)

/-- `a0_add_time_wall_header`. -/
def addTimeWallHeader : Leaf Host where
  process := some fun pkt chain => do
    let wall ← Prog.read Host.wall
    chain (pkt.addHeader "a0_time_wall" wall)

/-- `a0_add_writer_id_header`, with its id. -/
def addWriterIdHeader (id : CString) : Leaf Host where
  close := some (pure .ok)
  process := some fun pkt chain => chain (pkt.addHeader "a0_writer_id" id)

/-- `a0_add_writer_seq_header`, with the address of its counter. -/
def addWriterSeqHeader (data : ℕ) : Leaf Host where
  close := some (pure .ok)
  process := some fun pkt chain => do
    let seq ← Prog.read fun h => h.heap data
    setHeap data (wrap (seq + 1))
    match seqText seq with
    | none => pure none
    | some text => chain (pkt.addHeader "a0_writer_seq" text)

/-- `a0_add_transport_seq_header`. -/
def addTransportSeqHeader : Leaf Host where
  processLocked := some fun pkt chain => do
    let seq ← Prog.read fun h => (workingState h.mem).seqHigh
    match seqText seq with
    | none => pure none
    | some text => chain (pkt.addHeader "a0_transport_seq" text)

/-! ### Conditional writes -/

/-- A store to a flag, at an address or in a local variable. -/
def setFlag (a : Option ℕ) (v : Bool) : Prog Host Unit :=
  match a with
  | none => pure ()
  | some a => setHeap a v.toNat

/-- `a0_write_if_empty`, with the address of its flag, or none. -/
def writeIfEmpty (mode : ArenaMode) (written : Option ℕ) : Leaf Host where
  processLocked := some fun pkt chain => do
    let isEmpty ← Prog.read fun h => empty h.mem
    setFlag written isEmpty
    if isEmpty then chain pkt
    else do
      onArena (unlock mode)
      pure .ok

/-- The newest packet, as `a0_json_mergepatch_process_locked_nonempty` gets it. -/
def newestPacket (m : Mem) (t : Transport) : Option Buf :=
  let t := match jumpTail m t with
    | .ok t' => t'
    | .error _ => t
  match frame m t with
  | .ok off => some ⟨off + 40, frameDataSize m off⟩
  | .error _ => none

variable {Val : Type}

/-- `a0_json_mergepatch_process_locked_nonempty`, on the payload of the newest packet and
that of the packet that is written: the new payload. -/
def mergePayload (json : Yyjson Val) (original patch : List UInt8) : Except Err (List UInt8) := do
  let originalSize := json.readMaxMemoryUsage original.length
  if originalSize = 0 then throw (.customMsg "Failed to parse json: original json too big")
  let originalDoc ← (json.read original).mapError fun msg => Err.customMsg ("Failed to parse json: " ++ msg)
  let patchSize := json.readMaxMemoryUsage patch.length
  if patchSize = 0 then throw (.customMsg "Failed to parse json: mergepatch too big")
  let patchDoc ← (json.read patch).mapError fun msg => Err.customMsg ("Failed to parse json: " ++ msg)
  (json.write (json.mergePatch originalDoc patchDoc) (originalSize + patchSize)).mapError fun msg =>
    Err.customMsg ("Failed to serialize cfg: " ++ msg)

/-- `a0_json_mergepatch`. -/
def jsonMergepatch (json : Yyjson Val) (mode : ArenaMode) : Leaf Host where
  processLocked := some fun pkt chain => do
    let isEmpty ← Prog.read fun h => empty h.mem
    if isEmpty then chain pkt
    else do
      let newest ← Prog.read fun h => newestPacket h.mem { arena := ⟨0, mode⟩ }
      match newest with
      | none => pure none
      | some fpkt => do
        let original ← Prog.read fun h =>
          let buf := flatPacketPayload h.mem fpkt
          h.mem.loadBytes buf.data buf.size
        match mergePayload json original pkt.payload with
        | .error e => do
          onArena (unlock mode)
          pure (some (.error e))
        | .ok payload => chain { pkt with payload := payload }

/-! ### What comes with the library -/

/-- A middleware that comes with the library, with its user data. -/
inductive Provided where
  | timeMono | timeWall
  | writerId (id : CString)
  | writerSeq (data : ℕ)
  | transportSeq
  | writeIfEmpty (written : Option ℕ)
  | jsonMergepatch
  deriving DecidableEq

/-- The middleware. -/
def Provided.leaf (json : Yyjson Val) (mode : ArenaMode) : Provided → Leaf Host
  | timeMono => addTimeMonoHeader
  | timeWall => addTimeWallHeader
  | writerId id => addWriterIdHeader id
  | writerSeq data => addWriterSeqHeader data
  | transportSeq => addTransportSeqHeader
  | writeIfEmpty written => AlephZero.writeIfEmpty mode written
  | jsonMergepatch => AlephZero.jsonMergepatch json mode

/-- `a0_add_standard_headers`. -/
def addStandardHeaders (id : CString) (data : ℕ) : Tree Provided :=
  .compose (.compose (.compose (.compose (.leaf .timeMono) (.leaf .timeWall)) (.leaf (.writerId id)))
    (.leaf (.writerSeq data))) (.leaf .transportSeq)

/-- `a0_writer_write`, by a writer that is built of such middleware. -/
def writerWrite (json : Yyjson Val) (mode : ArenaMode) (out : Buf) (w : Build Provided) (pkt : Packet) :
    Prog Host Status :=
  (w.writer (Provided.leaf json mode)).write (writeAction mode out) pkt

end AlephZero
