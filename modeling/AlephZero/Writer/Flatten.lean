import AlephZero.Writer.Basic

/-!
# Writers are flat

Any middleware that calls the next one, with `process` and `process_locked` present or
absent, on a writer that is built by pushing and wrapping compositions in any nesting.

## What is proved

* **`write_flattens`** — a write runs each `process` once, in order and without the lock,
  takes the lock once, runs each `process_locked` once, in the same order, and serializes
  and commits once; so it does not matter how the middleware is nested, and whether it is
  pushed or wrapped; and closing a composition closes each leaf once.
-/

namespace AlephZero

open StoreProg Transport

/-- A write, by a flat list of middleware that calls the next one. -/
def straightWrite (mode : ArenaMode) (out : Buf) (cs : List (Calling Host)) (pkt : Packet) :
    Prog Host Status := do
  let r ← runStages (cs.map Calling.process) pkt
  onArena (lock mode)
  let r' ← runStages (cs.map Calling.processLocked) r.1
  let status ← onArena do
    let fpkt ← r'.1.serialize (allocatorImpl mode) out
    match fpkt with
    | none => pure none
    | some _ => do
      commit
      unlock mode
      pure Status.ok
  let status ← r'.2 status
  r.2 status

theorem flatWrite_stages (mode : ArenaMode) (out : Buf) (cs : List (Calling Host)) (pkt : Packet) :
    flatWrite (writeAction mode out) (cs.map Calling.leaf) pkt = straightWrite mode out cs pkt := by
  have hfalse : cs.map (fun c => c.stage false) = cs.map Calling.process := rfl
  have htrue : cs.map (fun c => c.stage true) = cs.map Calling.processLocked := rfl
  rw [flatWrite, chainOf_stages, straightWrite, Stage.fn, hfalse]
  simp only [chainOf_stages, Stage.fn, htrue, bind_assoc]
  rfl

/-- **Composition is flattening**: a write by a writer that is built in any way, of any
middleware that calls the next one, is the write of the flat list of its leaves, the
outermost first; so composition is associative, and to wrap a writer in a middleware is to
push it; and to close a composition closes each leaf once, in order. -/
theorem write_flattens (mode : ArenaMode) (out : Buf) :
    let write (w : Build (Calling Host)) := (w.writer Calling.leaf).write (writeAction mode out)
    (∀ w pkt, write w pkt = straightWrite mode out w.leaves pkt) ∧
    (∀ a b c w pkt, write (.push (.compose (.compose a b) c) w) pkt =
      write (.push (.compose a (.compose b c)) w) pkt) ∧
    (∀ m w pkt, write (.wrap m w) pkt = write (.push m w) pkt) ∧
    ∀ a b : Tree (Calling Host), ((Tree.compose a b).middleware Calling.leaf).close (writeAction mode out) =
      some (closeAll ((a.leaves ++ b.leaves).map Calling.leaf) >>= fun _ => pure .ok) := by
  intro write
  have hflat : ∀ w pkt, write w pkt = straightWrite mode out w.leaves pkt := fun w pkt =>
    (write_eq _ _ w pkt).trans (flatWrite_stages mode out w.leaves pkt)
  refine ⟨hflat, fun a b c w pkt => ?_, fun m w pkt => ?_, fun a b => close_eq _ _ a b⟩
  · rw [hflat, hflat]
    simp only [Build.leaves, Tree.leaves, List.append_assoc]
  · rw [hflat, hflat]
    rfl

end AlephZero
