import AlephZero.Packet.Basic

/-!
# Chains of middleware

`writer.c`, less the write action: a writer is a linked list of middleware. A write goes
down the list once without the lock, and, from the head again, once with it; each
middleware calls the next one. A composition puts its two parts in front of the rest.

## The model

A writer is the list of the middleware it links, the head first. A chain, as a middleware
gets it, is a function of the packet, the rest of the run: only a composition and the
write action look into it, and for these the run is written out (`writeImpl`). The end of
the list, behind the write action, is a null pointer, and a run that follows it gives
`none`, as does one that does not end or that writes outside a buffer of its own.

## What is proved

* `writeImpl_eq` — a run is that of the leaves of the list, in order (`chainOf`).
* `write_eq` — a write runs the leaves without the lock, takes it, runs the leaves with
  the lock, and the write action.
* `chainOf_stages` — middleware that calls the next one runs in order, once each.
* `close_eq` — closing a composition closes each of its leaves, in order.
-/

namespace AlephZero

open StoreProg

variable {σ α : Type}

/-- `A0_OK` or an error. It is `none` if there is no result. -/
abbrev Status := Option (Except Err Unit)

/-- `A0_OK`. -/
def Status.ok : Status := some (.ok ())

/-- A `process` or a `process_locked`, with its user data: it gets the packet and the
chain. -/
abbrev Process (σ : Type) := Packet → (Packet → Prog σ Status) → Prog σ Status

/-- A middleware that is not a composition: its `close`, `process` and `process_locked`,
each of which may be absent. -/
structure Leaf (σ : Type) where
  close : Option (Prog σ Status) := none
  process : Option (Process σ) := none
  processLocked : Option (Process σ) := none

/-- What the write action does: its `close`, `a0_transport_lock` in its `process`, and its
`process_locked`. -/
structure WriteAction (σ : Type) where
  close : Prog σ Status
  lock : Prog σ Unit
  processLocked : Packet → Prog σ Status

/-- `a0_middleware_t`. -/
inductive Middleware (σ : Type) where
  | leaf (l : Leaf σ)
  /-- `a0_middleware_compose`. -/
  | compose (first second : Middleware σ)
  /-- The write action. -/
  | action

/-- `a0_writer_t`: its action, and those of the writers behind `_next`. -/
abbrev Writer (σ : Type) := List (Middleware σ)

namespace Middleware

/-- The number of middleware in a middleware. -/
def size : Middleware σ → ℕ
  | leaf _ | action => 1
  | compose first second => first.size + second.size + 1

/-- The size of a list of middleware. -/
def sizes (w : Writer σ) : ℕ := (w.map size).sum

end Middleware

/-! ### Writing -/

/-- The functions of a leaf that are called with the lock, or without. -/
def Leaf.fn (l : Leaf σ) (locked : Bool) : Option (Process σ) :=
  if locked then l.processLocked else l.process

/-- `a0_writer_write_impl`, at the writer `curr`; `locked` says whether `_tlk` is set. -/
def writeImpl (act : WriteAction σ) (head : Writer σ) (locked : Bool) (curr : Writer σ) (pkt : Packet) :
    Prog σ Status :=
  match curr with
  | [] => pure none
  | .leaf l :: next =>
    match l.fn locked with
    | none => writeImpl act head locked next pkt
    | some process => process pkt fun pkt => writeImpl act head locked next pkt
  | .compose first second :: next =>
    -- `a0_compose_process`
    writeImpl act head locked (first :: second :: next) pkt
  | .action :: _ =>
    match locked with
    | false => do
      -- `a0_write_action_process`
      act.lock
      writeImpl act head true head pkt
    | true => act.processLocked pkt
termination_by ((!locked).toNat, Middleware.sizes curr)
decreasing_by
  all_goals simp only [Prod.lex_def, Middleware.sizes, List.map_cons, List.sum_cons, Middleware.size]
  · exact .inr ⟨trivial, by omega⟩
  · exact .inr ⟨trivial, by omega⟩
  · exact .inr ⟨trivial, by omega⟩
  · exact .inl (by decide)

/-- `a0_writer_write`. -/
def Writer.write (act : WriteAction σ) (w : Writer σ) (pkt : Packet) : Prog σ Status :=
  writeImpl act w false w pkt

/-! ### Building writers -/

namespace Writer

/-- `a0_writer_init`. -/
def init : Writer σ := [.action]

/-- `a0_writer_wrap`. -/
def wrap (m : Middleware σ) (w : Writer σ) : Writer σ := m :: w

/-- `a0_writer_push`. -/
def push (m : Middleware σ) : Writer σ → Writer σ
  | [] => []
  | act :: next => .compose m act :: next

end Writer

/-- A `close` is called, if there is one, and what it returns is not looked at. -/
def callClose : Option (Prog σ Status) → Prog σ Unit
  | some close => do
    let _ ← close
    pure ()
  | none => pure ()

namespace Middleware

/-- The `close` of a middleware; that of a composition calls those of its parts. -/
def close (act : WriteAction σ) : Middleware σ → Option (Prog σ Status)
  | leaf l => l.close
  | action => some act.close
  | compose first second => some do
    callClose (first.close act)
    callClose (second.close act)
    pure .ok

end Middleware

/-! ### Flattening -/

/-- A composition of leaves, in any nesting. -/
inductive Tree (α : Type) where
  | leaf (l : α)
  | compose (first second : Tree α)

namespace Tree

/-- The middleware. -/
def middleware (f : α → Leaf σ) : Tree α → Middleware σ
  | leaf l => .leaf (f l)
  | compose first second => .compose (first.middleware f) (second.middleware f)

/-- The leaves, the outermost first. -/
def leaves : Tree α → List α
  | leaf l => [l]
  | compose first second => first.leaves ++ second.leaves

end Tree

/-- How a writer is built. -/
inductive Build (α : Type) where
  | init
  | push (m : Tree α) (w : Build α)
  | wrap (m : Tree α) (w : Build α)

namespace Build

/-- The writer. -/
def writer (f : α → Leaf σ) : Build α → Writer σ
  | init => .init
  | push m w => .push (m.middleware f) (w.writer f)
  | wrap m w => .wrap (m.middleware f) (w.writer f)

/-- The leaves, the outermost first. -/
def leaves : Build α → List α
  | init => []
  | push m w | wrap m w => m.leaves ++ w.leaves

end Build

/-- The leaves' functions one after the other, each with the rest as its chain. -/
def chainOf (locked : Bool) (k : Packet → Prog σ Status) : List (Leaf σ) → Packet → Prog σ Status
  | [], pkt => k pkt
  | l :: ls, pkt =>
    match l.fn locked with
    | none => chainOf locked k ls pkt
    | some process => process pkt fun pkt => chainOf locked k ls pkt

/-- A write as that of a flat list of leaves. -/
def flatWrite (act : WriteAction σ) (ls : List (Leaf σ)) (pkt : Packet) : Prog σ Status :=
  chainOf false (fun pkt => do
    act.lock
    chainOf true act.processLocked ls pkt) ls pkt

theorem chainOf_append (locked : Bool) (k : Packet → Prog σ Status) (ls ls' : List (Leaf σ))
    (pkt : Packet) : chainOf locked k (ls ++ ls') pkt = chainOf locked (chainOf locked k ls') ls pkt := by
  induction ls generalizing pkt with
  | nil => rfl
  | cons l ls ih =>
    have hfun : (fun pkt => chainOf locked k (ls ++ ls') pkt) =
        fun pkt => chainOf locked (chainOf locked k ls') ls pkt := funext ih
    simp only [List.cons_append, chainOf]
    cases l.fn locked with
    | none => exact ih pkt
    | some process => rw [hfun]

variable (act : WriteAction σ) (head : Writer σ) (locked : Bool) (f : α → Leaf σ)

/-- A tree runs as its leaves. -/
theorem writeImpl_tree (m : Tree α) (next : Writer σ) (pkt : Packet) :
    writeImpl act head locked (m.middleware f :: next) pkt =
      chainOf locked (writeImpl act head locked next) (m.leaves.map f) pkt := by
  induction m generalizing next pkt with
  | leaf l =>
    rw [Tree.middleware, writeImpl, Tree.leaves]
    simp only [List.map_cons, List.map_nil, chainOf]
  | compose first second ihf ihs =>
    have hfun : writeImpl act head locked (second.middleware f :: next) =
        chainOf locked (writeImpl act head locked next) (second.leaves.map f) := funext (ihs next)
    rw [Tree.middleware, writeImpl, ihf, hfun, Tree.leaves, List.map_append, chainOf_append]

theorem Build.writer_cons (w : Build α) : ∃ first next, w.writer f = first :: next := by
  induction w with
  | init => exact ⟨_, _, rfl⟩
  | wrap m w => exact ⟨_, _, rfl⟩
  | push m w ih =>
    obtain ⟨first, next, hw⟩ := ih
    exact ⟨_, _, by rw [Build.writer, hw]; rfl⟩

/-- A writer that has been built runs as its leaves, and then its write action. -/
theorem writeImpl_eq (w : Build α) (pkt : Packet) : writeImpl act head locked (w.writer f) pkt =
    chainOf locked (fun pkt => writeImpl act head locked [.action] pkt) (w.leaves.map f) pkt := by
  induction w generalizing pkt with
  | init => rfl
  | wrap m w ih =>
    have hfun : writeImpl act head locked (w.writer f) = _ := funext ih
    rw [Build.writer, Writer.wrap, writeImpl_tree, hfun, Build.leaves, List.map_append, chainOf_append]
  | push m w ih =>
    have hfun : writeImpl act head locked (w.writer f) = _ := funext ih
    rw [Build.leaves, List.map_append, chainOf_append, ← hfun, Build.writer]
    obtain ⟨first, next, hw⟩ := w.writer_cons f
    rw [hw, Writer.push, writeImpl, writeImpl_tree]

/-- **A write runs the leaves** without the lock, takes the lock, runs the leaves with it,
and the write action. -/
theorem write_eq (w : Build α) (pkt : Packet) :
    (w.writer f).write act pkt = flatWrite act (w.leaves.map f) pkt := by
  have hlocked : writeImpl act (w.writer f) true (w.writer f) =
      chainOf true act.processLocked (w.leaves.map f) := by
    funext pkt
    rw [writeImpl_eq]
    congr 1
    funext pkt
    rw [writeImpl]
  rw [Writer.write, writeImpl_eq, flatWrite]
  congr 1
  funext pkt
  rw [writeImpl]
  simp only [hlocked]

/-! ### Middleware that calls the next one -/

/-- What a function does before it calls the next one, which gets the packet it gives,
and what it does behind that call. -/
abbrev Stage (σ : Type) := Packet → Prog σ (Packet × (Status → Prog σ Status))

/-- The function. -/
def Stage.fn (stage : Stage σ) : Process σ := fun pkt chain => do
  let r ← stage pkt
  let status ← chain r.1
  r.2 status

/-- A middleware that calls the next one; its functions may be absent. -/
structure Calling (σ : Type) where
  close : Option (Prog σ Status)
  process : Option (Stage σ)
  processLocked : Option (Stage σ)

namespace Calling

/-- The middleware. -/
def leaf (c : Calling σ) : Leaf σ where
  close := c.close
  process := c.process.map Stage.fn
  processLocked := c.processLocked.map Stage.fn

/-- The stage that is called with the lock, or without. -/
def stage (c : Calling σ) (locked : Bool) : Option (Stage σ) := if locked then c.processLocked else c.process

theorem fn_leaf (c : Calling σ) : c.leaf.fn locked = (c.stage locked).map Stage.fn := by
  cases locked <;> rfl

end Calling

/-- The stages that are present, one after the other, and what is left to do behind the
call of the last one, in the opposite order. -/
def runStages : List (Option (Stage σ)) → Stage σ
  | [], pkt => pure (pkt, pure)
  | none :: stages, pkt => runStages stages pkt
  | some stage :: stages, pkt => do
    let r ← stage pkt
    let r' ← runStages stages r.1
    pure (r'.1, fun status => r'.2 status >>= r.2)

/-- Middleware that calls the next one runs in order, once each. -/
theorem chainOf_stages (k : Packet → Prog σ Status) (cs : List (Calling σ)) (pkt : Packet) :
    chainOf locked k (cs.map Calling.leaf) pkt =
      (runStages (cs.map fun c => c.stage locked)).fn pkt k := by
  induction cs generalizing pkt with
  | nil => simp only [List.map_nil, chainOf, Stage.fn, runStages, pure_bind, bind_pure]
  | cons c cs ih =>
    have hfun : (fun pkt => chainOf locked k (cs.map Calling.leaf) pkt) =
        fun pkt => (runStages (cs.map fun c => c.stage locked)).fn pkt k := funext ih
    simp only [List.map_cons, chainOf, Calling.fn_leaf]
    cases c.stage locked with
    | none => exact ih pkt
    | some stage =>
      simp only [Option.map_some, hfun]
      simp only [Stage.fn, runStages, bind_assoc, pure_bind]

/-! ### Closing -/

/-- Leaves are closed, in order. -/
def closeAll : List (Leaf σ) → Prog σ Unit
  | [] => pure ()
  | l :: ls => do
    callClose l.close
    closeAll ls

theorem closeAll_append (ls ls' : List (Leaf σ)) :
    closeAll (ls ++ ls') = closeAll ls >>= fun _ => closeAll ls' := by
  induction ls with
  | nil => simp only [List.nil_append, closeAll, pure_bind]
  | cons l ls ih => simp only [List.cons_append, closeAll, ih, bind_assoc]

theorem callClose_tree (m : Tree α) :
    callClose ((m.middleware f).close act) = closeAll (m.leaves.map f) := by
  induction m with
  | leaf l =>
    simp only [Tree.middleware, Middleware.close, Tree.leaves, List.map_cons, List.map_nil, closeAll,
      bind_pure_unit]
  | compose first second ihf ihs =>
    simp only [Tree.middleware, Middleware.close, Tree.leaves, List.map_append, closeAll_append, ← ihf, ← ihs]
    rw [callClose]
    simp only [bind_assoc, pure_bind, bind_pure_unit]

/-- Closing a composition closes each of its leaves, in order. -/
theorem close_eq (first second : Tree α) :
    ((Tree.compose first second).middleware f).close act =
      some (closeAll ((Tree.compose first second).leaves.map f) >>= fun _ => pure .ok) := by
  rw [Tree.leaves, List.map_append, closeAll_append, ← callClose_tree act, ← callClose_tree act]
  simp only [Tree.middleware, Middleware.close, bind_assoc]

end AlephZero
