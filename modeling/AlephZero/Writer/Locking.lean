import AlephZero.Writer.AllOrNothing

/-!
# Who releases the lock

The middleware of `middleware.c` and the write action of `writer.c` once more, with what
they do to the transport's mutex: `Locking` says how a program of a `Host` runs on a state,
and how the lock is taken and released there. On a `Host` that is what the middleware does
to the pages (`Locking.host`); a `Ledger` counts as well. An `Account` says what is known of
any state that has a host in it.

## What is proved

* `leaf_host`, `writeAction_host` — on a `Host` it is the middleware of the library.
* `Account.chainOf_follows` — the middleware does to the host of a state what it does to a
  host; under the lock it does nothing else, but to release the lock, in the end.
* `chainOf_ledger` — on a ledger the lock is not taken again, and is released once.
* **`critical_released`** — under whatever middleware, from the lock on, a write that
  returns has taken the lock once and released it once.
-/

namespace AlephZero

open ByteMem StoreProg Prog Transport

/-- How middleware works on a state. -/
structure Locking (σ : Type) where
  /-- What is done to a host. -/
  onHost : {α : Type} → Prog Host α → Prog σ α
  /-- `a0_transport_lock`. -/
  lock : Prog σ Unit
  /-- `a0_transport_unlock`. -/
  unlock : Prog σ Unit

namespace Locking

variable {Val σ : Type} (L : Locking σ)

/-- The write action. -/
def writeAction (mode : ArenaMode) (out : Buf) : WriteAction σ where
  close := pure .ok
  lock := L.lock
  processLocked pkt := do
    let r ← L.onHost (onArena (pkt.serialize (allocatorImpl mode) out))
    match r with
    | none => pure none
    | some _ => do
      L.onHost (onArena commit)
      L.unlock
      pure .ok

/-- `a0_add_time_mono_header`. -/
def addTimeMonoHeader : Leaf σ where
  processLocked := some fun pkt chain => do
    let mono ← L.onHost (Prog.read Host.mono)
    chain (pkt.addHeader "a0_time_mono" mono)

/-- `a0_add_time_wall_header`. -/
def addTimeWallHeader : Leaf σ where
  process := some fun pkt chain => do
    let wall ← L.onHost (Prog.read Host.wall)
    chain (pkt.addHeader "a0_time_wall" wall)

/-- `a0_add_writer_id_header`. -/
def addWriterIdHeader (_ : Locking σ) (id : CString) : Leaf σ where
  close := some (pure .ok)
  process := some fun pkt chain => chain (pkt.addHeader "a0_writer_id" id)

/-- `a0_add_writer_seq_header`. -/
def addWriterSeqHeader (data : ℕ) : Leaf σ where
  close := some (pure .ok)
  process := some fun pkt chain => do
    let seq ← L.onHost (Prog.read fun h => h.heap data)
    L.onHost (setHeap data (wrap (seq + 1)))
    match seqText seq with
    | none => pure none
    | some text => chain (pkt.addHeader "a0_writer_seq" text)

/-- `a0_add_transport_seq_header`. -/
def addTransportSeqHeader : Leaf σ where
  processLocked := some fun pkt chain => do
    let seq ← L.onHost (Prog.read fun h => (workingState h.mem).seqHigh)
    match seqText seq with
    | none => pure none
    | some text => chain (pkt.addHeader "a0_transport_seq" text)

/-- `a0_write_if_empty`. -/
def writeIfEmpty (written : Option ℕ) : Leaf σ where
  processLocked := some fun pkt chain => do
    let isEmpty ← L.onHost (Prog.read fun h => empty h.mem)
    L.onHost (setFlag written isEmpty)
    if isEmpty then chain pkt
    else do
      L.unlock
      pure .ok

/-- `a0_json_mergepatch`. -/
def jsonMergepatch (json : Yyjson Val) (mode : ArenaMode) : Leaf σ where
  processLocked := some fun pkt chain => do
    let isEmpty ← L.onHost (Prog.read fun h => empty h.mem)
    if isEmpty then chain pkt
    else do
      let newest ← L.onHost (Prog.read fun h => newestPacket h.mem { arena := ⟨0, mode⟩ })
      match newest with
      | none => pure none
      | some fpkt => do
        let original ← L.onHost (Prog.read fun h =>
          let buf := flatPacketPayload h.mem fpkt
          h.mem.loadBytes buf.data buf.size)
        match mergePayload json original pkt.payload with
        | .error e => do
          L.unlock
          pure (some (.error e))
        | .ok payload => chain { pkt with payload := payload }

/-- A middleware that comes with the library. -/
def leaf (json : Yyjson Val) (mode : ArenaMode) : Provided → Leaf σ
  | .timeMono => L.addTimeMonoHeader
  | .timeWall => L.addTimeWallHeader
  | .writerId id => L.addWriterIdHeader id
  | .writerSeq data => L.addWriterSeqHeader data
  | .transportSeq => L.addTransportSeqHeader
  | .writeIfEmpty written => L.writeIfEmpty written
  | .jsonMergepatch => L.jsonMergepatch json mode

/-- `a0_writer_write`. -/
def write (json : Yyjson Val) (mode : ArenaMode) (out : Buf) (w : Build Provided) (pkt : Packet) : Prog σ Status :=
  (w.writer (L.leaf json mode)).write (L.writeAction mode out) pkt

/-- A write from the lock on, with what the middleware has made of the packet before. -/
def critical (json : Yyjson Val) (mode : ArenaMode) (out : Buf) (ls : List Provided) (pkt : Packet) :
    Prog σ Status := do
  L.lock
  chainOf true (L.writeAction mode out).processLocked (ls.map (L.leaf json mode)) pkt

/-! ### On a host -/

/-- What is done to the pages. -/
def host (mode : ArenaMode) : Locking Host where
  onHost p := p
  lock := onArena (Transport.lock mode)
  unlock := onArena (Transport.unlock mode)

theorem leaf_host (json : Yyjson Val) (mode : ArenaMode) (l : Provided) :
    (host mode).leaf json mode l = l.leaf json mode := by
  cases l with
  | timeMono | timeWall | writerId | writerSeq | transportSeq | writeIfEmpty | jsonMergepatch => rfl

end Locking

/-- A program on the arena is run in two parts. -/
theorem onArena_bind {α β : Type} (p : Prog Mem α) (f : α → Prog Mem β) :
    onArena (p >>= f) = onArena p >>= fun a => onArena (f a) := by
  funext h
  simp [onArena, Prog.focus, bind, Prog.bind]

theorem onArena_pure {α : Type} (a : α) : onArena (pure a) = pure a := rfl

/-- On a host the write action is that of the library. -/
theorem Locking.writeAction_host (mode : ArenaMode) (out : Buf) (pkt : Packet) :
    ((host mode).writeAction mode out).processLocked pkt = (AlephZero.writeAction mode out).processLocked pkt := by
  simp only [writeAction, AlephZero.writeAction, writeActionProcessLocked, host, onArena_bind]
  congr 1
  funext r
  cases r with
  | none => rfl
  | some r => simp only [onArena_bind, onArena_pure]

/-! ### What is known of a state -/

/-- What is known of a state with a host in it, from one on which a program runs. -/
structure Account {σ : Type} (L : Locking σ) (mode : ArenaMode) where
  host : σ → Host
  /-- Nothing is done but to the host. -/
  Uses : σ → σ → Prop
  uses_refl : ∀ s, Uses s s
  eval_onHost : ∀ {α : Type} (p : Prog Host α) (s : σ), (L.onHost p).eval s = p.eval (host s)
  host_onHost : ∀ {α : Type} (p : Prog Host α) (s : σ), host ((L.onHost p).exec s) = p.exec (host s)
  uses_onHost : ∀ {α : Type} (p : Prog Host α) (s t : σ), Uses ((L.onHost p).exec s) t → Uses s t
  host_lock : ∀ s, host (L.lock.exec s) = (onArena (Transport.lock mode)).exec (host s)
  host_unlock : ∀ s, host (L.unlock.exec s) = (onArena (Transport.unlock mode)).exec (host s)

namespace Account

variable {σ : Type} {L : Locking σ} {mode : ArenaMode} (A : Account L mode) {out : Buf}

/-- A program does to the host what `base` does; if it returns, `Returned` relates the
states before and behind it, and if not, `Stuck` does. -/
structure Follows (Stuck Returned : σ → σ → Prop) (p : Prog σ Status) (base : Prog Host Status) (s : σ) : Prop where
  eval : p.eval s = base.eval (A.host s)
  host : A.host (p.exec s) = base.exec (A.host s)
  stuck : p.eval s = none → Stuck s (p.exec s)
  returned : p.eval s ≠ none → Returned s (p.exec s)

/-- What is done to the host in front makes no difference. -/
def Absorbs (L : Locking σ) (R : σ → σ → Prop) : Prop :=
  ∀ {α : Type} (p : Prog Host α) (s t : σ), R ((L.onHost p).exec s) t → R s t

/-- Nothing is done but to the host, and in the end the lock is released. -/
def Releasing (s u : σ) : Prop := ∃ t, A.Uses s t ∧ u = L.unlock.exec t

theorem absorbs_uses : Absorbs L A.Uses := A.uses_onHost

theorem absorbs_releasing : Absorbs L A.Releasing := by
  rintro α p s u ⟨t, ht, hu⟩
  exact ⟨t, A.uses_onHost p s t ht, hu⟩

section Rules

variable {A} {α : Type} {s : σ} {S R : σ → σ → Prop} {k : α → Prog σ Status} {k' : α → Prog Host Status}

theorem follows_none (h : S s s) : A.Follows S R (pure none) (pure none) s :=
  ⟨rfl, rfl, fun _ => h, fun hne => absurd rfl hne⟩

/-- Middleware that returns has released the lock. -/
theorem follows_unlock (h : R s (L.unlock.exec s)) (status : Except Err Unit) :
    A.Follows S R (do L.unlock; pure (some status)) (do onArena (Transport.unlock mode); pure (some status)) s := by
  refine ⟨rfl, A.host_unlock s, ?_, fun _ => h⟩
  intro hnone
  cases hnone

/-- What is done to the host before. -/
theorem Follows.onHost (hS : Absorbs L S) (hR : Absorbs L R) (p : Prog Host α)
    (h : A.Follows S R (k (p.eval (A.host s))) (k' (p.eval (A.host s))) ((L.onHost p).exec s)) :
    A.Follows S R (L.onHost p >>= k) (p >>= k') s := by
  obtain ⟨heval, hhost, hstuck, hreturned⟩ := h
  rw [A.host_onHost] at heval hhost
  constructor
  · rw [eval_bind, A.eval_onHost]
    exact heval
  · rw [exec_bind, A.eval_onHost]
    exact hhost
  · rw [eval_bind, exec_bind, A.eval_onHost]
    exact fun hnone => hS p s _ (hstuck hnone)
  · rw [eval_bind, exec_bind, A.eval_onHost]
    exact fun hne => hR p s _ (hreturned hne)

/-- The same condition decides. -/
theorem Follows.ite {c : Prop} [Decidable c] {p q : Prog σ Status} {p' q' : Prog Host Status}
    (ht : c → A.Follows S R p p' s) (hf : ¬ c → A.Follows S R q q' s) :
    A.Follows S R (if c then p else q) (if c then p' else q') s := by
  by_cases hc : c
  · rw [if_pos hc, if_pos hc]
    exact ht hc
  · rw [if_neg hc, if_neg hc]
    exact hf hc

end Rules

/-- The write action releases the lock, whether or not there is a frame for the packet. -/
theorem follows_writeAction (pkt : Packet) (s : σ) :
    A.Follows A.Uses A.Releasing ((L.writeAction mode out).processLocked pkt)
      ((AlephZero.writeAction mode out).processLocked pkt) s := by
  rw [← Locking.writeAction_host mode out pkt]
  apply Follows.onHost A.absorbs_uses A.absorbs_releasing
  cases (onArena (pkt.serialize (allocatorImpl mode) out)).eval (A.host s) with
  | none => exact follows_none (A.uses_refl _)
  | some r =>
    apply Follows.onHost A.absorbs_uses A.absorbs_releasing
    exact follows_unlock ⟨_, A.uses_refl _, rfl⟩ (.ok ())

variable {Val : Type} (json : Yyjson Val)

/-- Any middleware does to the host what it does to a host, and if `k` is last in the chain,
what follows the state is what `k` says, or that the lock is released. -/
theorem chainOf_follows {S R : σ → σ → Prop} (locked : Bool) {k : Packet → Prog σ Status}
    {k' : Packet → Prog Host Status} (hS : Absorbs L S) (hR : Absorbs L R) (hrefl : ∀ s, S s s)
    (hunlock : locked = true → ∀ s, R s (L.unlock.exec s)) (hk : ∀ pkt s, A.Follows S R (k pkt) (k' pkt) s)
    (ls : List Provided) (s : σ) (pkt : Packet) :
    A.Follows S R (chainOf locked k (ls.map (L.leaf json mode)) pkt)
      (chainOf locked k' (ls.map (Provided.leaf json mode)) pkt) s := by
  induction ls generalizing s pkt with
  | nil => exact hk pkt s
  | cons l ls ih =>
    cases locked with
    | false =>
      cases l with
      | timeMono | transportSeq | writeIfEmpty | jsonMergepatch => exact ih s pkt
      | timeWall =>
        apply Follows.onHost hS hR (Prog.read Host.wall)
        exact ih _ _
      | writerId id => exact ih s _
      | writerSeq data =>
        apply Follows.onHost hS hR (Prog.read fun h => h.heap data)
        apply Follows.onHost hS hR (setHeap data _)
        cases seqText ((Prog.read fun h : Host => h.heap data).eval (A.host s)) with
        | none => exact follows_none (hrefl _)
        | some text => exact ih _ _
    | true =>
      have hrelease := hunlock rfl
      cases l with
      | timeWall | writerId | writerSeq => exact ih s pkt
      | timeMono =>
        apply Follows.onHost hS hR (Prog.read Host.mono)
        exact ih _ _
      | transportSeq =>
        apply Follows.onHost hS hR (Prog.read fun h => (workingState h.mem).seqHigh)
        cases seqText ((Prog.read fun h : Host => (workingState h.mem).seqHigh).eval (A.host s)) with
        | none => exact follows_none (hrefl _)
        | some text => exact ih _ _
      | writeIfEmpty written =>
        apply Follows.onHost hS hR (Prog.read fun h => empty h.mem)
        apply Follows.onHost hS hR (setFlag written _)
        apply Follows.ite
        · intro _
          exact ih _ pkt
        · intro _
          exact follows_unlock (hrelease _) (.ok ())
      | jsonMergepatch =>
        apply Follows.onHost hS hR (Prog.read fun h => empty h.mem)
        apply Follows.ite
        · intro _
          exact ih _ pkt
        · intro _
          apply Follows.onHost hS hR (Prog.read fun h => newestPacket h.mem { arena := ⟨0, mode⟩ })
          cases (Prog.read fun h : Host => newestPacket h.mem { arena := ⟨0, mode⟩ }).eval _ with
          | none => exact follows_none (hrefl _)
          | some fpkt =>
            apply Follows.onHost hS hR (Prog.read fun h => h.mem.loadBytes (flatPacketPayload h.mem fpkt).data
              (flatPacketPayload h.mem fpkt).size)
            cases mergePayload json _ pkt.payload with
            | error e => exact follows_unlock (hrelease _) (.error e)
            | ok payload => exact ih _ _

/-- Under the lock: any middleware, and the write action. -/
theorem chainOf_locked (out : Buf) (ls : List Provided) (s : σ) (pkt : Packet) :
    A.Follows A.Uses A.Releasing
      (chainOf true (L.writeAction mode out).processLocked (ls.map (L.leaf json mode)) pkt)
      (chainOf true (AlephZero.writeAction mode out).processLocked (ls.map (Provided.leaf json mode)) pkt) s :=
  A.chainOf_follows json true A.absorbs_uses A.absorbs_releasing A.uses_refl
    (fun _ s => ⟨s, A.uses_refl s, rfl⟩) (fun pkt s => A.follows_writeAction pkt s) ls s pkt

end Account

/-! ### On a ledger -/

/-- A host, and how often the lock has been taken and released. -/
structure Ledger where
  host : Host
  acquired : ℕ
  released : ℕ

namespace Ledger

/-- A program on the host. -/
def onHost {α : Type} (p : Prog Host α) : Prog Ledger α := Prog.focus Ledger.host (fun h s => { s with host := h }) p

/-- It is counted. -/
def locking (mode : ArenaMode) : Locking Ledger where
  onHost := onHost
  lock := do
    onHost (onArena (Transport.lock mode))
    Prog.write fun s => { s with acquired := s.acquired + 1 }
  unlock := do
    onHost (onArena (Transport.unlock mode))
    Prog.write fun s => { s with released := s.released + 1 }

/-- The counts are the same, unless something is done to the lock. -/
def account (mode : ArenaMode) : Account (locking mode) mode where
  host := Ledger.host
  Uses s t := t.acquired = s.acquired ∧ t.released = s.released
  uses_refl _ := ⟨rfl, rfl⟩
  eval_onHost _ _ := rfl
  host_onHost _ _ := rfl
  uses_onHost _ _ _ h := h
  host_lock _ := rfl
  host_unlock _ := rfl

/-- A program does to the host what `base` does; it does not take the lock; and if it
returns, it has released it once. -/
structure Releases (p : Prog Ledger Status) (base : Prog Host Status) (s : Ledger) : Prop where
  eval : p.eval s = base.eval s.host
  host : (p.exec s).host = base.exec s.host
  acquired : (p.exec s).acquired = s.acquired
  released : p.eval s ≠ none → (p.exec s).released = s.released + 1

variable {mode : ArenaMode} {out : Buf} {Val : Type} (json : Yyjson Val)

/-- Any middleware, and the write action, release the lock once. -/
theorem chainOf_ledger (ls : List Provided) (s : Ledger) (pkt : Packet) :
    Releases (chainOf true ((locking mode).writeAction mode out).processLocked
        (ls.map ((locking mode).leaf json mode)) pkt)
      (chainOf true (AlephZero.writeAction mode out).processLocked (ls.map (Provided.leaf json mode)) pkt) s := by
  obtain ⟨heval, hhost, hstuck, hreturned⟩ := (account mode).chainOf_locked json out ls s pkt
  refine ⟨heval, hhost, ?_, ?_⟩
  · by_cases hnone : (chainOf true ((locking mode).writeAction mode out).processLocked
        (ls.map ((locking mode).leaf json mode)) pkt).eval s = none
    · exact (hstuck hnone).1
    · obtain ⟨t, ht, hexec⟩ := hreturned hnone
      rw [hexec]
      exact ht.1
  · intro hne
    obtain ⟨t, ht, hexec⟩ := hreturned hne
    rw [hexec]
    exact congrArg (· + 1) ht.2

/-- **The lock is released once** by a write that returns, under whatever middleware; and
to the host a write does what it does without counting. -/
theorem critical_released (mode : ArenaMode) (out : Buf) (ls : List Provided) (h : Host) (pkt : Packet) :
    let p := (locking mode).critical json mode out ls pkt
    let base := (Locking.host mode).critical json mode out ls pkt
    p.eval ⟨h, 0, 0⟩ = base.eval h ∧ (p.exec ⟨h, 0, 0⟩).host = base.exec h ∧
      (p.exec ⟨h, 0, 0⟩).acquired = 1 ∧ (p.eval ⟨h, 0, 0⟩ ≠ none → (p.exec ⟨h, 0, 0⟩).released = 1) := by
  have hleaves : ls.map ((Locking.host mode).leaf json mode) = ls.map (Provided.leaf json mode) := by
    exact List.map_congr_left fun l _ => Locking.leaf_host json mode l
  have haction : ((Locking.host mode).writeAction mode out).processLocked =
      (AlephZero.writeAction mode out).processLocked := funext (Locking.writeAction_host mode out)
  intro p base
  obtain ⟨heval, hhost, hacquired, hreleased⟩ :=
    chainOf_ledger json ls ((locking mode).lock.exec ⟨h, 0, 0⟩) pkt
  simp only [p, base, Locking.critical, hleaves, haction]
  exact ⟨heval, hhost, hacquired, hreleased⟩

end Ledger

end AlephZero
