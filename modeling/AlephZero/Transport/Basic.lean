import AlephZero.Err
import AlephZero.Machine.ByteStores

/-!
# The transport

`transport.c`: a circular linked list of frames in an arena, a flat run of bytes
that several processes map. The arena is a byte memory, addressed from its own
start. Its first 144 bytes are the header `a0_transport_hdr_t`:

    0 magic    9 version   12 initialized   16 mtx   40 cnd
    48 state_pages[0]   88 state_pages[1]   128 committed_page_idx   136 arena_size

a state page is five words, `seq_low`, `seq_high`, `off_head`, `off_tail` and
`high_water_mark`; and a frame, anywhere behind the header, is the five words
`seq`, `off`, `next_off`, `prev_off` and `data_size`, followed by its data.

## The model

A function that only reads is a function of the memory. A function that stores
is a `Prog Mem`, one step for each store of the source, so that a process can
die between any two of them. `size_t` and `uint64_t` arithmetic wraps (`wrap`).
A structure assignment is one store for each of its words, and `memset` and
`memcpy` are one store for each byte.

The mutex is not in this module: what `a0_mtx_lock` and `a0_mtx_unlock` do to
the words of `mtx` is no concern of the functions here, and who holds it is kept
by the systems of processes that run them. Of `cnd` only the counter is kept
that `a0_cnd_broadcast` increments. `a0_transport_debugstr` is left out.
-/

namespace AlephZero

open ByteMem StoreProg

/-- `a0_arena_mode_t`. -/
inductive ArenaMode where
  | shared | exclusive | readonly
  deriving DecidableEq, Repr

/-- `a0_arena_t`; the buffer is the memory, and this is its size. -/
structure Arena where
  /-- `buf.size`. -/
  size : ℕ
  /-- `mode`. -/
  mode : ArenaMode

/-- `a0_transport_t`: a connection to a transport. -/
structure Transport where
  /-- `_arena`. -/
  arena : Arena
  /-- `_seq`, the sequence number of the connection's pointer. -/
  seq : ℕ := 0
  /-- `_off`, the offset of the connection's pointer. -/
  off : ℕ := 0
  /-- `_wait_cnt`. -/
  waitCnt : ℕ := 0
  /-- `_shutdown`. -/
  shutdown : Bool := false

/-- `a0_transport_state_t`. -/
@[ext]
structure TransportState where
  /-- The sequence number of the oldest frame. -/
  seqLow : ℕ
  /-- The sequence number of the newest frame. -/
  seqHigh : ℕ
  /-- The offset of the oldest frame. -/
  offHead : ℕ
  /-- The offset of the newest frame. -/
  offTail : ℕ
  /-- The end of the space in use. -/
  highWaterMark : ℕ
  deriving DecidableEq

/-- The page describes no frame. -/
def TransportState.empty (s : TransportState) : Bool := s.seqHigh = 0 || s.seqHigh < s.seqLow

/-- The value of an unsigned 64-bit computation. -/
def wrap (n : ℕ) : ℕ := n % 2 ^ 64

namespace Transport

/-! ### The header -/

/-- `hdr->initialized`. -/
def initialized (m : Mem) : Bool := m.load 1 12 ≠ 0

/-- `hdr->committed_page_idx`. -/
def committedPageIdx (m : Mem) : ℕ := m.load 1 128

/-- `hdr->arena_size`. -/
def arenaSize (m : Mem) : ℕ := m.load 8 136

/-- The address of `hdr->state_pages[i]`. -/
def statePage (i : ℕ) : ℕ := 48 + 40 * i

/-- C's `!` on a number. -/
def lnot (i : ℕ) : ℕ := if i = 0 then 1 else 0

/-- `a0_transport_committed_page`. -/
def committedPage (m : Mem) : ℕ := statePage (committedPageIdx m)

/-- `a0_transport_working_page`. -/
def workingPage (m : Mem) : ℕ := statePage (lnot (committedPageIdx m))

/-- The state page at `p`. -/
def loadState (m : Mem) (p : ℕ) : TransportState :=
  ⟨m.load 8 p, m.load 8 (p + 8), m.load 8 (p + 16), m.load 8 (p + 24), m.load 8 (p + 32)⟩

/-- The committed page. -/
def committedState (m : Mem) : TransportState := loadState m (committedPage m)

/-- The working page. -/
def workingState (m : Mem) : TransportState := loadState m (workingPage m)

/-! ### Frame headers -/

/-- `frame_hdr->seq`. -/
def frameSeq (m : Mem) (off : ℕ) : ℕ := m.load 8 off

/-- `frame_hdr->off`. -/
def frameOff (m : Mem) (off : ℕ) : ℕ := m.load 8 (off + 8)

/-- `frame_hdr->next_off`. -/
def frameNextOff (m : Mem) (off : ℕ) : ℕ := m.load 8 (off + 16)

/-- `frame_hdr->prev_off`. -/
def framePrevOff (m : Mem) (off : ℕ) : ℕ := m.load 8 (off + 24)

/-- `frame_hdr->data_size`. -/
def frameDataSize (m : Mem) (off : ℕ) : ℕ := m.load 8 (off + 32)

/-- `frame->data`, as a byte string. -/
def frameData (m : Mem) (off : ℕ) : List UInt8 := m.loadBytes (off + 40) (frameDataSize m off)

/-- `a0_max_align`: the next multiple of 16. -/
def maxAlign (off : ℕ) : ℕ := wrap (off + 15) / 16 * 16

/-- `a0_transport_workspace_off`: the end of the header, 144, aligned. -/
def workspaceOff : ℕ := maxAlign 144

/-! ### Stores -/

/-- `*dst = *src`, on state pages. -/
def copyState (dst src : ℕ) : Prog Mem Unit := do
  let s ← Prog.read fun m => loadState m src
  storeWord dst s.seqLow
  storeWord (dst + 8) s.seqHigh
  storeWord (dst + 16) s.offHead
  storeWord (dst + 24) s.offTail
  storeWord (dst + 32) s.highWaterMark

/-- `a0_cnd_broadcast`, as far as it concerns the arena: the condition's counter
is incremented. -/
def cndBroadcast : Prog Mem Unit := Prog.write fun m => m.store 4 40 (m.load 4 40 + 1)

/-! ### Locking -/

/-- `a0_transport_lock`, once the mutex is acquired. -/
def lock (mode : ArenaMode) : Prog Mem Unit :=
  if mode ≠ .shared then pure ()
  else do
    -- "Clear any incomplete changes."
    let working ← Prog.read workingPage
    let committed ← Prog.read committedPage
    copyState working committed

/-- `a0_transport_unlock`, up to the release of the mutex. -/
def unlock (mode : ArenaMode) : Prog Mem Unit :=
  if mode ≠ .shared then pure ()
  else do
    let working ← Prog.read workingPage
    let committed ← Prog.read committedPage
    copyState working committed

/-! ### The pointer -/

/-- `a0_transport_empty`. -/
def empty (m : Mem) : Bool := (workingState m).empty

/-- `a0_transport_nonempty`. -/
def nonempty (m : Mem) : Bool := !empty m

/-- `a0_transport_iter_valid`. -/
def iterValid (m : Mem) (t : Transport) : Bool :=
  (workingState m).seqLow ≤ t.seq && t.seq ≤ (workingState m).seqHigh

/-- `a0_transport_jump`. -/
def jump (m : Mem) (t : Transport) (off : ℕ) : Except Err Transport :=
  if maxAlign off ≠ off then .error .range
  else if arenaSize m ≤ wrap (off + 40) then .error .range
  else if arenaSize m ≤ wrap (wrap (off + 40) + frameDataSize m off) then .error .range
  else .ok { t with off := off, seq := frameSeq m off }

/-- `a0_transport_jump_head`. -/
def jumpHead (m : Mem) (t : Transport) : Except Err Transport :=
  if empty m then .error .range
  else .ok { t with seq := (workingState m).seqLow, off := (workingState m).offHead }

/-- `a0_transport_jump_tail`. -/
def jumpTail (m : Mem) (t : Transport) : Except Err Transport :=
  if empty m then .error .range
  else .ok { t with seq := (workingState m).seqHigh, off := (workingState m).offTail }

/-- `a0_transport_has_next`. -/
def hasNext (m : Mem) (t : Transport) : Bool := !empty m && t.seq < (workingState m).seqHigh

/-- `a0_transport_step_next`. -/
def stepNext (m : Mem) (t : Transport) : Except Err Transport :=
  if !hasNext m t then .error .range
  else if t.seq < (workingState m).seqLow then
    .ok { t with seq := (workingState m).seqLow, off := (workingState m).offHead }
  else
    let off := frameNextOff m t.off
    .ok { t with off := off, seq := frameSeq m off }

/-- `a0_transport_has_prev`. -/
def hasPrev (m : Mem) (t : Transport) : Bool := !empty m && (workingState m).seqLow < t.seq

/-- `a0_transport_step_prev`. -/
def stepPrev (m : Mem) (t : Transport) : Except Err Transport :=
  if !hasPrev m t then .error .range
  else
    let off := framePrevOff m t.off
    .ok { t with off := off, seq := frameSeq m off }

/-- `a0_transport_frame`: the address of the frame at the pointer. -/
def frame (m : Mem) (t : Transport) : Except Err ℕ :=
  if t.seq < (workingState m).seqLow then .error (.sys .espipe) else .ok t.off

/-! ### Committing -/

/-- `a0_transport_commit`. -/
def commit : Prog Mem Unit := do
  let idx ← Prog.read committedPageIdx
  -- the flip comes before the copy, which a dying process may leave half done
  Prog.write fun m => m.store 1 128 (lnot idx)
  let working ← Prog.read workingPage
  let committed ← Prog.read committedPage
  copyState working committed
  cndBroadcast

/-! ### Allocating -/

/-- `a0_transport_frame_end`. -/
def frameEnd (m : Mem) (off : ℕ) : ℕ := wrap (wrap (off + 40) + frameDataSize m off)

/-- `a0_transport_frame_intersects`. -/
def frameIntersects (start₁ size₁ start₂ size₂ : ℕ) : Bool :=
  start₁ < wrap (start₂ + size₂) && start₂ < wrap (start₁ + size₁)

/-- `a0_transport_head_interval`: the offset and the size of the oldest frame. -/
def headInterval (m : Mem) (state : ℕ) : Option (ℕ × ℕ) :=
  if empty m then none
  else
    let off := (loadState m state).offHead
    some (off, wrap (40 + frameDataSize m off))

/-- `a0_transport_remove_head`. -/
def removeHead (state : ℕ) : Prog Mem Unit := do
  let s ← Prog.read fun m => loadState m state
  if s.offHead = s.offTail then do
    storeWord (state + 16) 0
    storeWord (state + 24) 0
    storeWord (state + 32) workspaceOff
  else do
    let next ← Prog.read fun m => frameNextOff m s.offHead
    storeWord (state + 16) next
    -- "Check whether the old head frame was responsible for the high water mark."
    let headEnd ← Prog.read fun m => frameEnd m (frameOff m s.offHead)
    if s.highWaterMark = headEnd then do
      let tailEnd ← Prog.read fun m => frameEnd m s.offTail
      storeWord (state + 32) tailEnd
    else pure ()
  storeWord state (wrap (s.seqLow + 1))
  commit

/-- `a0_transport_find_slot`. -/
def findSlot (m : Mem) (frameSize : ℕ) : Except Err ℕ :=
  let off :=
    if empty m then workspaceOff
    else
      let off := maxAlign (frameEnd m (workingState m).offTail)
      if arenaSize m ≤ wrap (off + frameSize) then workspaceOff else off
  if arenaSize m < wrap (off + frameSize) then .error .frameLarge else .ok off

/-- `a0_transport_slot_evicts`. -/
def slotEvicts (m : Mem) (off frameSize : ℕ) : Bool :=
  match headInterval m (workingPage m) with
  | none => false
  | some (headOff, headSize) =>
    if frameIntersects off frameSize headOff headSize then true
    else (workingState m).offTail < (workingState m).offHead && off = workspaceOff

/-- `a0_transport_evict`. The value is `false` if the loop is not over after
`fuel` rounds. -/
def evict (off frameSize : ℕ) : ℕ → Prog Mem Bool
  | 0 => pure false
  | fuel + 1 => do
    let evicts ← Prog.read fun m => slotEvicts m off frameSize
    if evicts then do
      let state ← Prog.read workingPage
      removeHead state
      evict off frameSize fuel
    else pure true

/-- `a0_transport_slot_init`. -/
def slotInit (state frameHdr off size : ℕ) : Prog Mem Unit := do
  memset frameHdr 40
  let s ← Prog.read fun m => loadState m state
  storeWord (state + 8) (wrap (s.seqHigh + 1))
  storeWord frameHdr (wrap (s.seqHigh + 1))
  if s.seqLow = 0 then storeWord state (wrap (s.seqHigh + 1)) else pure ()
  storeWord (frameHdr + 8) off
  storeWord (frameHdr + 16) 0
  storeWord (frameHdr + 32) size

/-- `a0_transport_maybe_set_head`. -/
def maybeSetHead (state frameHdr : ℕ) : Prog Mem Unit := do
  let head ← Prog.read fun m => (loadState m state).offHead
  if head = 0 then do
    let off ← Prog.read fun m => frameOff m frameHdr
    storeWord (state + 16) off
  else pure ()

/-- `a0_transport_update_tail`. -/
def updateTail (state frameHdr : ℕ) : Prog Mem Unit := do
  let tail ← Prog.read fun m => (loadState m state).offTail
  let off ← Prog.read fun m => frameOff m frameHdr
  if tail ≠ 0 then do
    storeWord (tail + 16) off
    storeWord (frameHdr + 24) tail
  else pure ()
  storeWord (state + 24) off

/-- `a0_transport_update_high_water_mark`. -/
def updateHighWaterMark (state frameHdr : ℕ) : Prog Mem Unit := do
  let mark ← Prog.read fun m => frameEnd m (frameOff m frameHdr)
  let old ← Prog.read fun m => (loadState m state).highWaterMark
  if old < mark then storeWord (state + 32) mark else pure ()

/-- A bound on the rounds of the eviction loop: one for each frame, and one to
find nothing left to evict. -/
def evictFuel (s : TransportState) : ℕ := s.seqHigh + 2 - s.seqLow

/-- `a0_transport_alloc`: the address of the new frame. It is `none` if the
eviction loop is not over within `evictFuel` rounds. -/
def alloc (mode : ArenaMode) (size : ℕ) : Prog Mem (Option (Except Err ℕ)) :=
  if mode = .readonly then pure (some (.error (.sys .eperm)))
  else do
    let slot ← Prog.read fun m => findSlot m (wrap (40 + size))
    match slot with
    | .error e => pure (some (.error e))
    | .ok off => do
      let fuel ← Prog.read fun m => evictFuel (workingState m)
      let ended ← evict off (wrap (40 + size)) fuel
      if ended then do
        -- an eviction commits, so the working page is another one now
        let state ← Prog.read workingPage
        slotInit state off off size
        maybeSetHead state off
        updateTail state off
        updateHighWaterMark state off
        pure (some (.ok off))
      else pure none

/-! ### The rest -/

/-- `a0_transport_used_space`. -/
def usedSpace (m : Mem) : ℕ := (workingState m).highWaterMark

/-- `a0_transport_resize`. -/
def resize (size : ℕ) : Prog Mem (Except Err Unit) := do
  let used ← Prog.read usedSpace
  if size < used then pure (.error .invalidArg)
  else do
    storeWord 136 size
    pure (.ok ())

/-- `a0_transport_clear`. -/
def clear : Prog Mem Unit := do
  let state ← Prog.read workingPage
  let high ← Prog.read fun m => (loadState m state).seqHigh
  storeWord state (wrap (high + 1))
  storeWord (state + 16) 0
  storeWord (state + 24) 0
  storeWord (state + 32) workspaceOff
  commit

/-! ### Opening -/

/-- The bytes of `"ALEPHZERO"`. -/
def magic : List UInt8 := [65, 76, 69, 80, 72, 90, 69, 82, 79]

/-- `a0_backward_compatiblility_update_from_0_2`. -/
def backwardCompatibilityUpdateFrom02 (arena : Arena) : Prog Mem Unit := do
  let tag ← Prog.read fun m => m.load 2 0
  if tag ≠ 0x0101 then pure ()
  else do
    let idx ← Prog.read fun m => m.load 4 120
    let page := if idx ≠ 0 then 88 else 56
    let seqLow ← Prog.read fun m => m.load 8 page
    let seqHigh ← Prog.read fun m => m.load 8 (page + 8)
    let offHead ← Prog.read fun m => m.load 8 (page + 16)
    let offTail ← Prog.read fun m => m.load 8 (page + 24)
    memset 0 144
    memcpy 0 magic
    memcpy 9 [0, 3, 0]
    storeWord 136 arena.size
    storeWord 48 seqLow
    storeWord 56 seqHigh
    storeWord 64 offHead
    storeWord 72 offTail
    storeWord 80 arena.size
    copyState 88 48
    Prog.write fun m => m.store 1 12 1

/-- In `a0_transport_init`: the mutex of an arena in EXCLUSIVE mode is zeroed. -/
def initMtx (mode : ArenaMode) : Prog Mem Unit :=
  if mode = .exclusive then memset 16 24 else pure ()

/-- In `a0_transport_init`: the header of an arena not in use yet is filled in. -/
def initHeader (size : ℕ) : Prog Mem Unit := do
  let init ← Prog.read initialized
  if !init then do
    memcpy 0 magic
    memcpy 9 [0, 3, 0]
    storeWord 136 size
    storeWord 80 workspaceOff
    storeWord 120 workspaceOff
    Prog.write fun m => m.store 1 12 1
  else pure ()

/-- `a0_transport_init`. -/
def init (arena : Arena) : Prog Mem Transport := do
  backwardCompatibilityUpdateFrom02 arena
  initMtx arena.mode
  lock arena.mode
  initHeader arena.size
  unlock arena.mode
  pure { arena := arena }

end Transport

end AlephZero
