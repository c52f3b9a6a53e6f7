import AlephZero.Packet.Basic
import AlephZero.Transport.Refinement

/-!
# Readers

`reader.c`: a reader is a connection to a transport with a pointer that it moves from
packet to packet. It begins at the oldest packet, at the newest one or behind it
(`ReaderInit`), and goes on to the next packet or to the newest one (`ReaderIter`). A
synchronous reader is called for each packet; a threaded one has a thread that calls
back.

## The model

What a reader does between two points at which it gives up the mutex is a function of
the memory, or a program where it stores. A call to the transport whose error the source
does not look at leaves the pointer where it was (`moved`). A flat packet is where
`a0_transport_frame` says, and is `none` if that call fails, since the source then goes
on with a pointer it has not set.
-/

namespace AlephZero

open ByteMem StoreProg Transport

/-- `a0_reader_init_t`. -/
inductive ReaderInit where
  | oldest | mostRecent | awaitNew
  deriving DecidableEq, Repr

/-- `a0_reader_iter_t`. -/
inductive ReaderIter where
  | next | newest
  deriving DecidableEq, Repr

/-- `a0_reader_options_t`. -/
structure ReaderOptions where
  init : ReaderInit
  iter : ReaderIter
  deriving DecidableEq, Repr

/-! ### Moving the pointer -/

/-- The pointer after a call whose error is not looked at. -/
def Transport.moved (t : Transport) : Except Err Transport → Transport
  | .ok t' => t'
  | .error _ => t

/-- Where a reader begins. -/
def jumpInit (m : Mem) (t : Transport) : ReaderInit → Transport
  | .oldest => t.moved (jumpHead m t)
  | .mostRecent | .awaitNew => t.moved (jumpTail m t)

/-- How a reader goes on. -/
def advance (m : Mem) (t : Transport) : ReaderIter → Transport
  | .next => t.moved (stepNext m t)
  | .newest => t.moved (jumpTail m t)

/-- The packet at the pointer, as the callback gets it. -/
def flatPacket (m : Mem) (t : Transport) : Option Buf :=
  match frame m t with
  | .ok off => some ⟨off + 40, frameDataSize m off⟩
  | .error _ => none

/-! ### Synchronous readers -/

/-- `a0_reader_sync_zc_t`. -/
structure ReaderSyncZc where
  transport : Transport
  opts : ReaderOptions
  firstReadDone : Bool

namespace ReaderSyncZc

/-- `a0_reader_sync_zc_init`, once it has a connection. -/
def initLocked (opts : ReaderOptions) (t : Transport) : Prog Mem ReaderSyncZc := do
  lock t.arena.mode
  let t ← Prog.read fun m => jumpInit m t opts.init
  unlock t.arena.mode
  pure ⟨t, opts, false⟩

/-- `a0_reader_sync_zc_init`. -/
def init (arena : Arena) (opts : ReaderOptions) : Prog Mem ReaderSyncZc := do
  let t ← Transport.init arena
  initLocked opts t

variable (m : Mem) (r : ReaderSyncZc)

/-- The packet at the pointer has been read, or is not to be. -/
def behind : Bool := r.firstReadDone || r.opts.init = .awaitNew

/-- `should_step`. -/
def shouldStep : Bool := r.behind || !iterValid m r.transport

/-- The reader when it has stepped. -/
def stepped : ReaderSyncZc := { r with transport := advance m r.transport r.opts.iter }

/-- `a0_reader_sync_zc_can_read`. -/
def canRead : Bool := if r.behind then hasNext m r.transport else nonempty m

/-- `a0_reader_sync_zc_read_align`. -/
def readAlign : Except Err ReaderSyncZc :=
  if empty m then .error .again
  else if r.behind && !hasNext m r.transport then .error .again
  else if r.shouldStep m then .ok (r.stepped m)
  else .ok r

/-- The reader when a packet has been read. -/
def done : ReaderSyncZc := { r with firstReadDone := true }

/-- `a0_reader_sync_zc_read`: where the packet is that the callback gets. -/
def read (r : ReaderSyncZc) : Prog Mem (Except Err (Option Buf) × ReaderSyncZc) := do
  lock r.transport.arena.mode
  let aligned ← Prog.read r.readAlign
  match aligned with
  | .error e => do
    unlock r.transport.arena.mode
    pure (.error e, r)
  | .ok r' => do
    let fpkt ← Prog.read fun m => flatPacket m r'.transport
    unlock r.transport.arena.mode
    pure (.ok fpkt, r'.done)

end ReaderSyncZc

/-! ### Threaded readers -/

/-- `a0_reader_zc_t`, less its callback and what belongs to its thread. -/
structure ReaderZc where
  transport : Transport
  opts : ReaderOptions
  startedEmpty : Bool

namespace ReaderZc

/-- `a0_reader_zc_init`, once it has a connection. -/
def initLocked (opts : ReaderOptions) (t : Transport) : Prog Mem ReaderZc := do
  lock t.arena.mode
  let startedEmpty ← Prog.read empty
  let t ← Prog.read fun m => if startedEmpty then t else jumpInit m t opts.init
  unlock t.arena.mode
  pure ⟨t, opts, startedEmpty⟩

variable (m : Mem) (r : ReaderZc)

/-- `reset`. -/
def reset : Bool := r.startedEmpty || !iterValid m r.transport

/-- `a0_reader_zc_thread_handle_first_pkt`, once the transport is not empty: the reader,
and whether it handles the packet at its pointer. -/
def handleFirst : ReaderZc × Bool :=
  (if r.reset m then { r with transport := r.transport.moved (jumpHead m r.transport) } else r,
    r.reset m || r.opts.init = .oldest || r.opts.init = .mostRecent)

/-- `a0_reader_zc_thread_handle_next_pkt`, once there is a next packet. -/
def handleNext : ReaderZc := { r with transport := advance m r.transport r.opts.iter }

end ReaderZc

/-! ### Random access -/

/-- `a0_read_random_access`, while it has the lock: the packet that the callback gets. -/
def readRandomAccessLocked (m : Mem) (t : Transport) (off : ℕ) : Except Err (Option Buf) :=
  match jump m t off with
  | .error e => .error e
  | .ok t' => .ok (flatPacket m t')

/-- `a0_read_random_access`. -/
def readRandomAccess (arena : Arena) (off : ℕ) : Prog Mem (Except Err (Option Buf)) := do
  let t ← Transport.init arena
  lock arena.mode
  let r ← Prog.read fun m => readRandomAccessLocked m t off
  unlock arena.mode
  pure r

end AlephZero
