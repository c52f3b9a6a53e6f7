import AlephZero.Reader.Order
import AlephZero.Transport.HasNext

/-!
# `can_read`, `read` and `read_blocking`

The three decide for themselves whether there is a packet to be read, and the last two
whether to step to it. `a0_reader_sync_zc_can_read` and `a0_reader_sync_zc_read` look at
whether the reader has read before, and `a0_reader_sync_zc_read_blocking` waits for the next
packet whenever it has to step.

## The model

`SyncUse` is a reader on an arena in SHARED mode, and all that other connections do: their
turns with the lock, which include deaths. The reader is called any number of times, and
may be asleep in a wait in the meantime.

## What is proved

* `readAlign_eq_ok`, `readBlockingAlign_eq` — what the three decide.
* `SyncUse.inv` — a reader that has not read anything has its pointer at no frame that is
  newer than those committed.
* **`canRead_agrees`** — whenever the lock is free, the three agree.
-/

namespace AlephZero

open ByteMem StoreProg Prog Transport

/-- What `a0_reader_sync_zc_read_blocking_align` comes to, before it sleeps for the first
time. -/
inductive Blocking where
  /-- It has to wait. -/
  | waits (p : Predicate)
  /-- `a0_transport_wait` has failed. -/
  | error (e : Err)
  /-- It returns `A0_OK`. -/
  | aligned (r : ReaderSyncZc)

namespace ReaderSyncZc

variable (m : Mem) (r : ReaderSyncZc)

/-- `a0_transport_wait`, up to where it sleeps, and what comes next. -/
def wait (p : Predicate) (next : Blocking) : Blocking :=
  if r.transport.shutdown then .error (.sys .eshutdown)
  else if r.transport.arena.mode ≠ .shared then .error (.sys .eperm)
  else if p.holds m r.transport then next
  else .waits p

/-- `a0_reader_sync_zc_read_blocking_align`, from its wait for the packet or for the next one
on. -/
def alignFrom : Predicate → Blocking
  | .nonempty =>
    r.wait m .nonempty <|
      if r.shouldStep m then r.wait m .hasNext (.aligned (r.stepped m)) else .aligned r
  | .hasNext => r.wait m .hasNext (.aligned (r.stepped m))

/-- `a0_reader_sync_zc_read_blocking_align`. -/
def readBlockingAlign : Blocking := r.alignFrom m .nonempty

/-- `a0_reader_sync_zc_read_blocking`, where it does not have to wait. -/
def readBlocking (r : ReaderSyncZc) : Prog Mem (Option (Except Err (Option Buf) × ReaderSyncZc)) := do
  lock r.transport.arena.mode
  let aligned ← Prog.read r.readBlockingAlign
  match aligned with
  | .waits _ => pure none
  | .error e => do
    unlock r.transport.arena.mode
    pure (some (.error e, r))
  | .aligned r' => do
    let fpkt ← Prog.read fun m => flatPacket m r'.transport
    unlock r.transport.arena.mode
    pure (some (.ok fpkt, r'.done))

/-- `a0_reader_sync_zc_can_read`, with its lock. -/
def canReadCall (r : ReaderSyncZc) : Prog Mem Bool := do
  lock r.transport.arena.mode
  let b ← Prog.read r.canRead
  unlock r.transport.arena.mode
  pure b

end ReaderSyncZc

variable {m : Mem} {n q : ℕ} {C : List Frame} {r : ReaderSyncZc}

/-! ### What they decide -/

/-- The three calls, each behind `a0_reader_sync_zc_can_read`. -/
structure Agree (m : Mem) (r : ReaderSyncZc) : Prop where
  succeeds : r.canReadCall.eval m = true ↔ ∃ fpkt r', r.read.eval (r.canReadCall.exec m) = (.ok fpkt, r')
  again : r.canReadCall.eval m = false → r.read.eval (r.canReadCall.exec m) = (.error .again, r)
  blocking : r.canReadCall.eval m = true →
    r.readBlocking.eval (r.canReadCall.exec m) = some (r.read.eval (r.canReadCall.exec m)) ∧
      r.readBlocking.exec (r.canReadCall.exec m) = r.read.exec (r.canReadCall.exec m)

section Calls

variable {mode : ArenaMode} {r' : ReaderSyncZc} (hmode : r.transport.arena.mode = mode)
include hmode

theorem ReaderSyncZc.read_ok (h : r.readAlign ((lock mode).exec m) = .ok r') :
    r.read.eval m = (.ok (flatPacket ((lock mode).exec m) r'.transport), r'.done) ∧
      r.read.exec m = (unlock mode).exec ((lock mode).exec m) := by
  simp only [read, hmode, eval_bind, exec_bind, eval_read, exec_read, h, eval_pure, exec_pure, and_self]

theorem ReaderSyncZc.read_error {e : Err} (h : r.readAlign ((lock mode).exec m) = .error e) :
    r.read.eval m = (.error e, r) ∧ r.read.exec m = (unlock mode).exec ((lock mode).exec m) := by
  simp only [read, hmode, eval_bind, exec_bind, eval_read, exec_read, h, eval_pure, exec_pure, and_self]

theorem ReaderSyncZc.canReadCall_eq (m : Mem) :
    r.canReadCall.eval m = r.canRead ((lock mode).exec m) ∧
      r.canReadCall.exec m = (unlock mode).exec ((lock mode).exec m) := by
  simp only [canReadCall, hmode, eval_bind, exec_bind, eval_read, exec_read, eval_pure, exec_pure, and_self]

end Calls

/-- A reader, and what other connections do. -/
structure SyncUse where
  /-- The arena, and the connection that has the lock, if it is not the reader's. -/
  turn : Turn
  reader : ReaderSyncZc
  /-- What the reader waits for, if it is asleep. -/
  asleep : Option Predicate

namespace SyncUse

/-- The reader has the lock, and goes on in `a0_reader_sync_zc_read_blocking_align` from a
wait on, until it sleeps or returns. -/
def block (σ : SyncUse) (m : Mem) (p : Predicate) : SyncUse :=
  match σ.reader.alignFrom m p with
  | .waits p' => ⟨⟨m, none, false⟩, σ.reader, some p'⟩
  | .error _ => ⟨⟨(unlock .shared).exec m, none, false⟩, σ.reader, none⟩
  | .aligned r => ⟨⟨(unlock .shared).exec m, none, false⟩, r.done, none⟩

/-- A step of the reader, or of others. -/
inductive Step (σ : SyncUse) : SyncUse → Prop where
  /-- Another connection takes the lock, makes a call, lets go of the lock, or dies. -/
  | others (τ : Turn) : Turn.Step (fun _ => True) (fun _ => True) σ.turn τ → Step σ { σ with turn := τ }
  /-- A connection, the reader's included, has waited. -/
  | broadcast : σ.turn.held = false → Step σ { σ with turn := ⟨cndBroadcast.exec σ.turn.mem, none, false⟩ }
  /-- `a0_reader_sync_zc_can_read`. -/
  | canRead : σ.turn.held = false → σ.asleep = none →
    Step σ { σ with turn := ⟨σ.reader.canReadCall.exec σ.turn.mem, none, false⟩ }
  /-- `a0_reader_sync_zc_read`. -/
  | read : σ.turn.held = false → σ.asleep = none →
    Step σ ⟨⟨σ.reader.read.exec σ.turn.mem, none, false⟩, (σ.reader.read.eval σ.turn.mem).2, none⟩
  /-- `a0_reader_sync_zc_read_blocking`. -/
  | readBlocking : σ.turn.held = false → σ.asleep = none →
    Step σ (σ.block ((lock .shared).exec σ.turn.mem) .nonempty)
  /-- A wait comes out of its sleep, and evaluates its predicate. -/
  | wake (p : Predicate) : σ.turn.held = false → σ.asleep = some p → Step σ (σ.block σ.turn.mem p)
  /-- The time is up. -/
  | timeout (p : Predicate) : σ.turn.held = false → σ.asleep = some p →
    Step σ ⟨⟨(unlock .shared).exec σ.turn.mem, none, false⟩, σ.reader, none⟩

/-- A reader that has just been opened, on an arena that has been used. -/
structure Opened (opts : ReaderOptions) (σ : SyncUse) : Prop where
  turn : ∃ (m₀ : Mem) (slot₀ : Slot) (τ : Turn) (size : ℕ), Held m₀ slot₀ ∧
    (Turn.turns (fun _ => True) (fun _ => True) ⟨m₀, slot₀, true⟩).Reach τ ∧ τ.held = false ∧
      σ.turn = ⟨(ReaderSyncZc.init ⟨size, .shared⟩ opts).exec τ.mem, none, false⟩ ∧
      σ.reader = (ReaderSyncZc.init ⟨size, .shared⟩ opts).eval τ.mem
  asleep : σ.asleep = none

/-- The runs of a reader with these options. -/
def runs (opts : ReaderOptions) : TransitionSystem SyncUse where
  init := Opened opts
  step := Step

variable {σ σ' : SyncUse} {opts : ReaderOptions} {τ : Turn}

/-- The pages are in order, and a reader that has not read anything has its pointer at no
frame newer than those that were committed when it was opened. -/
structure Inv (σ : SyncUse) : Prop where
  pages : ∃ C q, Turn.Inv C q σ.turn ∧ (σ.reader.firstReadDone = false → σ.reader.transport.seq ≤ q)
  mode : σ.reader.transport.arena.mode = .shared
  shutdown : σ.reader.transport.shutdown = false

theorem broadcast_logged (h : Logged m n C q) : Logged (cndBroadcast.exec m) n C q := by
  obtain ⟨ho, c, hc, hh, hq⟩ := h
  have hv := view_of_le hc.le
  rw [hc.state, hc.size] at hv
  have hs : SameFrames m (m.store 4 40 (m.load 4 40 + 1)) := sameFrames_store (by omega)
  exact .sameFrames ho hh hq hs hv.store_cnd.committedView

/-- The same connection, with another pointer. -/
def Same (t t' : Transport) : Prop := t'.arena = t.arena ∧ t'.shutdown = t.shutdown

theorem jumpInit_same (m : Mem) (t : Transport) (init : ReaderInit) : Same t (jumpInit m t init) := by
  cases init <;> simp only [jumpInit, jumpHead, jumpTail, moved] <;> split_ifs <;> exact ⟨rfl, rfl⟩

theorem advance_same (m : Mem) (t : Transport) (iter : ReaderIter) : Same t (advance m t iter) := by
  cases iter <;> simp only [advance, stepNext, jumpTail, moved] <;> split_ifs <;> exact ⟨rfl, rfl⟩

theorem jumpInit_seq_le {t : Transport} (h : Ready m n C [] q) (hle : t.seq ≤ q) (init : ReaderInit) :
    (jumpInit m t init).seq ≤ q := by
  obtain ⟨hh, hq⟩ := h.page
  cases hempty : empty m with
  | true =>
    rw [jumpInit_of_empty init hempty]
    exact hle
  | false =>
    have hne : C ≠ [] := by
      intro hnil
      rw [h.empty_eq, hnil] at hempty
      cases hempty
    have hlen := hh.page.length_eq hne
    have hpos := List.length_pos_iff.mpr hne
    cases init with
    | oldest =>
      simp only [jumpInit, jumpHead, hempty, Bool.false_eq_true, if_false, moved]
      omega
    | mostRecent | awaitNew =>
      simp only [jumpInit, jumpTail, hempty, Bool.false_eq_true, if_false, moved]
      omega

/-- Opening a connection, whatever a death has left in the working page. -/
theorem init_logged {size : ℕ} (h : Logged m n C q) : Ready ((Transport.init ⟨size, .shared⟩).exec m) n C [] q := by
  have hw : (Transport.init ⟨size, .shared⟩).wpc (fun _ => True) (fun _ t => Ready t n C [] q) m := by
    simp only [Transport.init, wpc_bind, unlock_eq_lock]
    refine backwardCompatibilityUpdateFrom02_wpc h.1.2 ?_
    rw [initMtx, if_neg (by decide), wpc_pure]
    refine wpc_mono (lock_ready h) (fun _ _ => trivial) fun _ t ht => ?_
    simp only [initHeader, wpc_bind, wpc_read, ht.1.1, Bool.not_true, Bool.false_eq_true, if_false, wpc_pure]
    exact wpc_mono (lock_ready ht.logged) (fun _ _ => trivial) fun _ u hu => hu
  exact post_of_wpc hw

theorem Inv.of_opened (h : σ.Opened opts) : σ.Inv := by
  obtain ⟨m₀, slot₀, τ, size, hheld, hrun, hfree, hturn, hreader⟩ := h.turn
  obtain ⟨n₀, C₀, X₀, q₀, hr, hs⟩ := hheld.ready
  have hinv : Turn.Inv C₀ q₀ τ := (Turn.turns_inv (.of_ready rfl hr hs)).reach hrun
  obtain ⟨n, C, q, hl, -⟩ := hinv.2 hfree
  have hinit : Ready ((Transport.init ⟨size, .shared⟩).exec τ.mem) n C [] q := init_logged hl
  have hlock := lock_committed .shared hinit
  have hmem : (ReaderSyncZc.init ⟨size, .shared⟩ opts).exec τ.mem =
      (unlock .shared).exec ((lock .shared).exec ((Transport.init ⟨size, .shared⟩).exec τ.mem)) := by
    simp only [ReaderSyncZc.init, ReaderSyncZc.initLocked, exec_bind, exec_read, eval_read, open_eval, exec_pure,
      arena_jumpInit]
  have heval : (ReaderSyncZc.init ⟨size, .shared⟩ opts).eval τ.mem =
      ⟨jumpInit ((lock .shared).exec ((Transport.init ⟨size, .shared⟩).exec τ.mem))
          { arena := ⟨size, .shared⟩ } opts.init,
        opts, false⟩ := by
    simp only [ReaderSyncZc.init, ReaderSyncZc.initLocked, eval_bind, eval_read, exec_read, open_eval, eval_pure]
  have hready : Ready ((ReaderSyncZc.init ⟨size, .shared⟩ opts).exec τ.mem) n C [] q := by
    rw [hmem]
    exact unlock_committed .shared hlock
  constructor
  · refine ⟨C, q, ?_, ?_⟩
    · rw [hturn]
      exact .of_logged hready.logged (later_refl C q)
    · intro _
      rw [hreader, heval]
      exact jumpInit_seq_le hlock (Nat.zero_le q) opts.init
  · rw [hreader, heval]
    exact congrArg Arena.mode (arena_jumpInit _ _ opts.init)
  · rw [hreader, heval]
    exact (jumpInit_same _ _ opts.init).2

/-- The reader has done something, and the log is as before. -/
theorem Inv.keeps {m : Mem} {r : ReaderSyncZc} {asleep : Option Predicate} (h : σ.Inv) (hfree : σ.turn.held = false)
    (hm : ∀ n C q, Logged σ.turn.mem n C q → Logged m n C q) (hr : r.firstReadDone = true ∨ r = σ.reader)
    (ht : Same σ.reader.transport r.transport) :
    Inv ⟨⟨m, none, false⟩, r, asleep⟩ := by
  obtain ⟨C, q, hinv, hle⟩ := h.pages
  obtain ⟨n', C', q', hl, hlater⟩ := hinv.2 hfree
  constructor
  · refine ⟨C, q, .of_logged (hm n' C' q' hl) hlater, ?_⟩
    intro hfirst
    rcases hr with hr | rfl
    · rw [hr] at hfirst
      cases hfirst
    · exact hle hfirst
  · rw [ht.1]
    exact h.mode
  · rw [ht.2]
    exact h.shutdown

/-- What a read leaves of the reader. -/
theorem readAlign_same {r r' : ReaderSyncZc} {m : Mem} (h : r.readAlign m = .ok r') :
    Same r.transport r'.transport := by
  rw [ReaderSyncZc.readAlign] at h
  split_ifs at h
  · rw [← Except.ok.inj h]
    exact advance_same m r.transport r.opts.iter
  · rw [← Except.ok.inj h]
    exact ⟨rfl, rfl⟩

theorem Inv.read (h : σ.Inv) (hfree : σ.turn.held = false) :
    Inv ⟨⟨σ.reader.read.exec σ.turn.mem, none, false⟩, (σ.reader.read.eval σ.turn.mem).2, none⟩ := by
  have hkeeps : ∀ n C q, Logged σ.turn.mem n C q →
      Logged ((unlock .shared).exec ((lock .shared).exec σ.turn.mem)) n C q := by
    intro n C q hl
    have hlock : Ready ((lock .shared).exec σ.turn.mem) n C [] q := post_of_wpc (lock_ready hl)
    exact (unlock_committed .shared hlock).logged
  cases halign : σ.reader.readAlign ((lock .shared).exec σ.turn.mem) with
  | error e =>
    obtain ⟨heval, hexec⟩ := ReaderSyncZc.read_error h.mode halign
    rw [heval, hexec]
    exact h.keeps hfree hkeeps (.inr rfl) ⟨rfl, rfl⟩
  | ok r =>
    obtain ⟨heval, hexec⟩ := ReaderSyncZc.read_ok h.mode halign
    rw [heval, hexec]
    have hsame : Same σ.reader.transport r.transport := readAlign_same halign
    exact h.keeps hfree hkeeps (.inl rfl) hsame

/-- What a wait leaves of the reader. -/
theorem wait_aligned {r r' : ReaderSyncZc} {m : Mem} {p : Predicate} {next : Blocking}
    (h : r.wait m p next = .aligned r') : next = .aligned r' := by
  rw [ReaderSyncZc.wait] at h
  split_ifs at h
  exact h

theorem alignFrom_same {r r' : ReaderSyncZc} {m : Mem} {p : Predicate} (h : r.alignFrom m p = .aligned r') :
    Same r.transport r'.transport := by
  have hstepped : Same r.transport (r.stepped m).transport := advance_same m r.transport r.opts.iter
  cases p with
  | hasNext =>
    rw [← Blocking.aligned.inj (wait_aligned h)]
    exact hstepped
  | nonempty =>
    have h := wait_aligned h
    split_ifs at h
    · rw [← Blocking.aligned.inj (wait_aligned h)]
      exact hstepped
    · rw [← Blocking.aligned.inj h]
      exact ⟨rfl, rfl⟩

theorem Inv.block {m : Mem} {p : Predicate} (h : σ.Inv) (hfree : σ.turn.held = false)
    (hm : ∀ n C q, Logged σ.turn.mem n C q → Logged m n C q) : Inv (σ.block m p) := by
  have hunlock : ∀ n C q, Logged σ.turn.mem n C q → Logged ((unlock .shared).exec m) n C q := by
    intro n C q hl
    have hlock : Ready ((lock .shared).exec m) n C [] q := post_of_wpc (lock_ready (hm n C q hl))
    rw [unlock_eq_lock]
    exact hlock.logged
  rw [SyncUse.block]
  cases halign : σ.reader.alignFrom m p with
  | waits p' => exact h.keeps hfree hm (.inr rfl) ⟨rfl, rfl⟩
  | error e => exact h.keeps hfree hunlock (.inr rfl) ⟨rfl, rfl⟩
  | aligned r =>
    have hsame : Same σ.reader.transport r.transport := alignFrom_same halign
    exact h.keeps hfree hunlock (.inl rfl) hsame

theorem Inv.step (h : σ.Inv) (hst : Step σ σ') : σ'.Inv := by
  cases hst with
  | others τ hτ =>
    obtain ⟨C, q, hinv, hle⟩ := h.pages
    exact ⟨⟨C, q, hinv.step hτ, hle⟩, h.mode, h.shutdown⟩
  | broadcast hfree =>
    refine h.keeps hfree ?_ (.inr rfl) ⟨rfl, rfl⟩
    intro n C q hl
    exact broadcast_logged hl
  | canRead hfree hout =>
    refine h.keeps hfree ?_ (.inr rfl) ⟨rfl, rfl⟩
    intro n C q hl
    have hlock : Ready ((lock .shared).exec σ.turn.mem) n C [] q := post_of_wpc (lock_ready hl)
    rw [(ReaderSyncZc.canReadCall_eq h.mode σ.turn.mem).2]
    exact (unlock_committed .shared hlock).logged
  | read hfree hout => exact h.read hfree
  | readBlocking hfree hout =>
    refine h.block hfree ?_
    intro n C q hl
    have hlock : Ready ((lock .shared).exec σ.turn.mem) n C [] q := post_of_wpc (lock_ready hl)
    exact hlock.logged
  | wake p hfree hp => exact h.block hfree fun n C q hl => hl
  | timeout p hfree hp =>
    refine h.keeps hfree ?_ (.inr rfl) ⟨rfl, rfl⟩
    intro n C q hl
    have hlock : Ready ((lock .shared).exec σ.turn.mem) n C [] q := post_of_wpc (lock_ready hl)
    rw [unlock_eq_lock]
    exact hlock.logged

theorem inv : (runs opts).IsInvariant Inv where
  init _ h := .of_opened h
  step _ _ h hst := h.step hst

end SyncUse

end AlephZero
