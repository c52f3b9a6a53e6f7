import AlephZero.Packet.Headers
import AlephZero.Writer.Fleet
import AlephZero.Writer.Standard
import Mathlib.Data.List.Nodup

/-!
# Headers number the packets

Any number of writers with the standard headers on one transport, any of which may die at
any time, and other connections, which clear the transport, or allocate a frame and unlock
without a commit, or die while they do so. The header `a0_transport_seq` is computed from
`seq_high` when a writer gets the lock, and the frame is allocated later, behind any
evictions.

## The model

A `Topic` is a `Fleet`, and every entry that has ever been in the committed log, in order:
after each step what is in the log with a number that is greater than the greatest one
before is added. Only in SHARED mode does `a0_transport_lock` drop what has not been
committed, and only there does a connection of another process die, or leave a frame behind.

## What is proved

* `writeActionProcessLocked_wpc`, `critical_standard_wpc` — what a write with the standard
  headers has committed at each of its stores.
* `Topic.Step.inv`, `Topic.isInvariant` — the invariant, for one step and for a run.
* **`headers_number`** — the packet that has been committed as the `i`-th one has the
  sequence number `i + 1`, and the decimal form of `i` in its header.
-/

namespace AlephZero

open ByteMem StoreProg Prog Transport

variable {Val ι : Type} {json : Yyjson Val} {mode : ArenaMode} {out : Buf} {h : Host} {pkt pkt' : Packet}
  {m t : Mem} {n q : ℕ} {C : List Frame} {bytes : List UInt8}

/-! ### What a write has committed -/

/-- The frames `C` are committed, less some of the oldest, or a frame with this data behind
them. -/
def Committing (n : ℕ) (C : List Frame) (q : ℕ) (bytes : List UInt8) (t : Mem) : Prop :=
  (∃ k, Logged t n (C.drop k) q) ∨
    ∃ k f, Frame.seq f = q + 1 ∧ f.data = bytes ∧ Logged t n (C.drop k ++ [f]) (q + 1)

/-- Nothing else is left to commit. -/
def Commits (n : ℕ) (C : List Frame) (q : ℕ) (bytes : List UInt8) (t : Mem) : Prop :=
  (∃ k, Ready t n (C.drop k) [] q) ∨
    ∃ k f, Frame.seq f = q + 1 ∧ f.data = bytes ∧ Ready t n (C.drop k ++ [f]) [] (q + 1)

theorem Commits.committing (h : Commits n C q bytes t) : Committing n C q bytes t := by
  rcases h with ⟨k, h⟩ | ⟨k, f, hseq, hdata, h⟩
  · exact .inl ⟨k, h.logged⟩
  · exact .inr ⟨k, f, hseq, hdata, h.logged⟩

theorem committing_kept (h : Logged t n C q) : Committing n C q bytes t := .inl ⟨0, h⟩

/-- From the allocated frame on. -/
theorem filled_wpc {f : Frame} {k : ℕ} (h : Ready m n (C.drop k) [f] q) (hf : f.seq = q + 1)
    (hlen : f.data.length = pkt.wire.length) :
    (do pkt.serializeTo (f.off + 40); commit; unlock mode : Prog Mem Unit).wpc (Committing n C q pkt.wire)
      (fun _ t => Commits n C q pkt.wire t) m := by
  have hfill : ∀ t, Mem.SameOutside (f.off + 40) pkt.wire.length m t →
      Ready t n (C.drop k) [f.reread t] q := by
    intro t ht
    exact Ready.sameOutside (X := []) h (hlen ▸ ht)
  simp only [wpc_bind]
  refine wpc_mono (pkt.serializeTo_wpc (f.off + 40)) (fun t ht => .inl ⟨k, (hfill t ht).logged⟩) ?_
  rintro _ t ⟨hs, hat⟩
  have hdata : (f.reread t).data = pkt.wire := by
    rw [Frame.reread, hlen]
    exact hat
  refine wpc_mono (commit_ready (hfill t hs)) (fun u hu => .inr ⟨k, f.reread t, hf, hdata, hu.1⟩) fun _ u hu => ?_
  refine wpc_mono (lock_mode mode hu) (fun v hv => .inr ⟨k, f.reread t, hf, hdata, hv⟩) fun _ v hv => ?_
  rw [unlocked_nil] at hv
  exact .inr ⟨k, f.reread t, hf, hdata, hv⟩

/-- The write action, on any packet. -/
theorem writeActionProcessLocked_wpc (hmode : mode ≠ .readonly) (h : Ready m n C [] q) (hq : q + 2 < 2 ^ 64)
    (hsize : pkt.stats.serialSize < 2 ^ 63) (hlow : 144 ≤ out.data) (hout : n ≤ out.data) :
    (writeActionProcessLocked mode out pkt).wpc (Committing n C q pkt.wire)
      (fun r t => r = .ok ∧ Commits n C q pkt.wire t) m := by
  have hq' : q + ([] : List Frame).length + 2 < 2 ^ 64 := hq
  simp only [writeActionProcessLocked, Packet.serialize, allocatorImpl, wpc_bind]
  refine wpc_mono (alloc_ready hmode h hq' hsize) (fun t ht => ?_) fun r t ht => ?_
  · rcases ht.logged with hl | ⟨k, -, -, hl⟩
    · exact committing_kept hl
    · rw [List.append_nil] at hl
      exact .inl ⟨k, hl⟩
  rcases ht with ⟨-, rfl, rfl⟩ | ⟨-, f, rfl, ha⟩
  · -- the packet is stored behind the arena, and there is nothing to commit
    simp only [wpc_bind, wpc_pure]
    refine wpc_mono (pkt.serializeTo_wpc out.data) (fun u hu => ?_) fun _ u hu => ?_
    · exact committing_kept (h.beyond hu hlow hout).logged
    refine wpc_mono (commit_ready (h.beyond hu.1 hlow hout)) (fun v hv => ?_) fun _ v hv => ?_
    · rw [List.append_nil] at hv
      exact committing_kept hv.1
    rw [List.append_nil] at hv
    refine wpc_mono (lock_mode mode hv) (fun w hw => committing_kept hw) fun _ w hw => ?_
    rw [unlocked_nil] at hw
    exact ⟨trivial, .inl ⟨0, hw⟩⟩
  · have hlen : f.data.length = pkt.wire.length := ha.length.trans pkt.length_wire.symm
    have hfilled : (do pkt.serializeTo (f.off + 40); commit; unlock mode : Prog Mem Unit).wpc
        (Committing n C q pkt.wire) (fun _ t => Commits n C q pkt.wire t) t := by
      rcases ha.ready with ⟨-, hr⟩ | ⟨-, hr⟩
      · exact filled_wpc (k := 0) hr ha.seq hlen
      · rw [List.append_nil] at hr
        exact filled_wpc hr ha.seq hlen
    simp only [wpc_bind, wpc_read, wpc_pure] at hfilled ⊢
    refine wpc_mono hfilled (fun _ hu => hu) fun _ u hu => ?_
    refine wpc_mono hu (fun _ hv => hv) fun _ v hv => ?_
    exact wpc_mono hv (fun _ hw => hw) fun _ w hw => ⟨trivial, hw⟩

/-- The lock is taken where deaths may have left the pages. -/
theorem lock_any (h : Logged m n C q) (hmode : mode = .shared ∨ Ready m n C [] q) :
    (lock mode).wpc (fun t => Logged t n C q) (fun _ t => Ready t n C [] q) m := by
  rcases hmode with rfl | hr
  · exact lock_ready h
  · have hl := lock_mode mode hr
    rwa [unlocked_nil] at hl

/-- A write with the standard headers from the lock on. The header has the number of the
newest packet; if that is too long for the buffer, there is no result. -/
theorem critical_standard_wpc {id : CString} {data : ℕ} (hmode : mode ≠ .readonly) (h₀ : Logged h.mem n C q)
    (hlock : mode = .shared ∨ Ready h.mem n C [] q)
    (hsize : ∀ pkt', lockedPhase json mode ((lock mode).exec h.mem) h.mono (standardWriter id data).leaves pkt =
      .append pkt' → pkt'.stats.serialSize < 2 ^ 63) (hlow : 144 ≤ out.data) (hout : n ≤ out.data) :
    ((Locking.host mode).critical json mode out (standardWriter id data).leaves pkt).wpc
      (fun h' => Logged h'.mem n C q ∨
        ∃ text, seqText q = some text ∧ Committing n C q (pkt.stampedLate text h.mono).wire h'.mem)
      (fun r h' => r ≠ none →
        ∃ text, seqText q = some text ∧ Commits n C q (pkt.stampedLate text h.mono).wire h'.mem) h := by
  have hcritical : (Locking.host mode).critical json mode out (standardWriter id data).leaves pkt = (do
      onArena (lock mode)
      let mono ← Prog.read Host.mono
      let seq ← Prog.read fun h => (workingState h.mem).seqHigh
      (seqText seq).elim (pure none) fun text =>
        ((Locking.host mode).writeAction mode out).processLocked (pkt.stampedLate text mono)) := by
    refine congrArg (onArena (lock mode) >>= ·) (funext fun _ =>
      congrArg (Prog.read Host.mono >>= ·) (funext fun mono =>
      congrArg (Prog.read (fun h : Host => (workingState h.mem).seqHigh) >>= ·) (funext fun seq => ?_)))
    cases seqText seq <;> rfl
  rw [leaves_standardWriter, lockedPhase_standard, (post_of_wpc (lock_any h₀ hlock)).seqHigh_eq] at hsize
  rw [hcritical]
  simp only [wpc_bind, wpc_read, onArena, wpc_focus]
  refine wpc_mono (lock_any h₀ hlock) (fun t ht => .inl ht) fun _ t ht => ?_
  rw [ht.seqHigh_eq, List.length_nil, Nat.add_zero] at *
  cases hs : seqText q with
  | none =>
    rw [Option.elim_none, wpc_pure]
    exact fun hne => absurd rfl hne
  | some text =>
    rw [hs] at hsize
    rw [Option.elim_some]
    have hq : q + 2 < 2 ^ 64 := by
      have hlt := (seqText_eq_some hs).1
      norm_num at hlt ⊢
      omega
    simp only [Locking.writeAction_host, writeAction, onArena, wpc_focus]
    refine wpc_mono (writeActionProcessLocked_wpc hmode ht hq (hsize _ rfl) hlow hout)
      (fun u hu => ?_) fun r u hu _ => ?_
    · exact .inr ⟨text, rfl, hu⟩
    · exact ⟨text, rfl, hu.2⟩

/-! ### Other connections -/

/-- What another connection does between a lock and an unlock: it clears the transport, or
allocates a frame for some bytes that it does not commit. -/
inductive Visit where
  | clear
  | abandon (bytes : List UInt8)

/-- The calls. -/
def Visit.prog (mode : ArenaMode) : Visit → Prog Mem Unit
  | clear => do
    lock mode
    Transport.clear
    unlock mode
  | abandon bytes => do
    lock mode
    let r ← Transport.alloc mode bytes.length
    match r with
    | some (.ok off) => memcpy (off + 40) bytes
    | _ => pure ()
    unlock mode

/-- Sizes are those of objects. -/
def Visit.Small : Visit → Prop
  | clear => True
  | abandon bytes => bytes.length < 2 ^ 63

/-- A visit evicts some of the oldest frames, or all, and commits nothing. -/
theorem Visit.prog_wpc {v : Visit} (hmode : mode ≠ .readonly) (h₀ : Logged m n C q)
    (hlock : mode = .shared ∨ Ready m n C [] q) (hv : mode = .shared ∨ v = .clear) (hsmall : v.Small)
    (hq : q + 2 < 2 ^ 64) :
    (v.prog mode).wpc (fun t => ∃ k, Logged t n (C.drop k) q) (fun _ t => ∃ k, Ready t n (C.drop k) [] q) m := by
  have hq' : q + ([] : List Frame).length + 2 < 2 ^ 64 := hq
  have hnil : C.drop C.length = [] := List.drop_length
  cases v with
  | clear =>
    simp only [prog, wpc_bind]
    refine wpc_mono (lock_any h₀ hlock) (fun t ht => ⟨0, ht⟩) fun _ t ht => ?_
    refine wpc_mono (clear_ready ht) (fun u hu => ?_) fun _ u hu => ?_
    · rcases hu with hu | hu
      · exact ⟨0, hu⟩
      · exact ⟨C.length, by rw [hnil]; exact hu⟩
    · refine wpc_mono (lock_mode mode hu) (fun w hw => ⟨C.length, by rw [hnil]; exact hw⟩) fun _ w hw => ?_
      rw [unlocked_nil] at hw
      exact ⟨C.length, by rw [hnil]; exact hw⟩
  | abandon bytes =>
    obtain rfl : mode = .shared := hv.resolve_right fun h => Visit.noConfusion h
    have hunlock : ∀ k u, Logged u n (C.drop k) q →
        (unlock .shared).wpc (fun t => ∃ k, Logged t n (C.drop k) q)
          (fun _ t => ∃ k, Ready t n (C.drop k) [] q) u :=
      fun k u hu => wpc_mono (lock_ready hu) (fun w hw => ⟨k, hw⟩) fun _ w hw => ⟨k, hw⟩
    simp only [prog, wpc_bind]
    refine wpc_mono (lock_any h₀ hlock) (fun t ht => ⟨0, ht⟩) fun _ t ht => ?_
    refine wpc_mono (alloc_ready hmode ht hq' hsmall) (fun u hu => ?_) fun r u hu => ?_
    · rcases hu.logged with hl | ⟨k, -, -, hl⟩
      · exact ⟨0, hl⟩
      · rw [List.append_nil] at hl
        exact ⟨k, hl⟩
    rcases hu with ⟨-, rfl, rfl⟩ | ⟨-, f, rfl, ha⟩
    · exact hunlock 0 _ ht.logged
    · obtain ⟨k, hr⟩ : ∃ k, Ready u n (C.drop k) ([] ++ [f]) q := by
        rcases ha.ready with ⟨-, hr⟩ | ⟨-, hr⟩
        · exact ⟨0, hr⟩
        · rw [List.append_nil] at hr
          exact ⟨_, hr⟩
      simp only [wpc_bind]
      refine wpc_mono (fill_ready hr ha.length.symm) ?_ fun _ w hw => hunlock k w hw.logged
      rintro w ⟨g, hw⟩
      exact ⟨k, hw.logged⟩

/-! ### Topics -/

/-- What has been committed between two states of the arena. -/
def committedSince (m m' : Mem) : List (ℕ × List UInt8) :=
  (logOf m' (committedState m')).filter fun e => (committedState m).seqHigh < e.1

theorem Transport.Logged.log_eq (h : Logged m n C q) :
    logOf m (committedState m) = C.map Frame.entry ∧ (committedState m).seqHigh = q := by
  obtain ⟨-, c, hc, hh, hq⟩ := h
  rw [hc.state]
  exact ⟨logOf_eq hh, hq⟩

/-- No committed frame is newer than the newest one. -/
theorem Transport.Logged.filter_drop (h : Logged m n C q) (k : ℕ) :
    ((C.drop k).map Frame.entry).filter (fun e => q < e.1) = [] := by
  obtain ⟨-, c, -, hh, hq⟩ := h
  rw [List.filter_eq_nil_iff]
  intro e he hlt
  obtain ⟨f, hf, rfl⟩ := List.mem_map.mp he
  have hle : f.seq ≤ c.seqHigh := (hh.page.seq_le (List.mem_of_mem_drop hf)).2
  rw [hq] at hle
  exact absurd (of_decide_eq_true hlt) (not_lt.mpr hle)

theorem committedSince_dropped {k : ℕ} (h : Logged m n C q) (ht : Logged t n (C.drop k) q) :
    committedSince m t = [] := by
  rw [committedSince, ht.log_eq.1, h.log_eq.2, h.filter_drop]

theorem committedSince_appended {k : ℕ} {f : Frame} (h : Logged m n C q)
    (ht : Logged t n (C.drop k ++ [f]) (q + 1)) (hf : f.seq = q + 1) : committedSince m t = [(q + 1, f.data)] := by
  rw [committedSince, ht.log_eq.1, h.log_eq.2, List.map_append, List.filter_append, h.filter_drop]
  simp [Frame.entry, hf]

/-- The value of the header. -/
def Packet.transportSeq (pkt : Packet) : Option (List UInt8) :=
  (pkt.firstHeader "a0_transport_seq").map CString.bytes

/-- The header is the first one. -/
theorem Packet.transportSeq_stampedLate (pkt : Packet) (text mono : CString) :
    (pkt.stampedLate text mono).transportSeq = some text.bytes := by
  rw [transportSeq, firstHeader_eq]
  rfl

/-- The entries of these packets, in order of their commits. -/
def numbered (pkts : List Packet) : List (ℕ × List UInt8) := pkts.mapIdx fun i pkt => (i + 1, pkt.wire)

/-- The committed frames are the newest of the entries, each of which has its place in the
header. -/
structure Recorded (m : Mem) (n : ℕ) (C : List Frame) (q : ℕ) (history : List (ℕ × List UInt8)) : Prop where
  logged : Logged m n C q
  newest : C.map Frame.entry <:+ history
  packets : ∃ pkts : List Packet, history = numbered pkts ∧ pkts.length = q ∧
    pkts.map Packet.transportSeq = (List.range q).map fun i => some (decimal i)
  bound : q ≤ 10 ^ 19

variable {history : List (ℕ × List UInt8)}

/-- Some of the oldest frames have been evicted, or all. -/
theorem Recorded.dropped {k : ℕ} (h : Recorded m n C q history) (ht : Logged t n (C.drop k) q) :
    Recorded t n (C.drop k) q (history ++ committedSince m t) := by
  rw [committedSince_dropped h.logged ht, List.append_nil]
  refine ⟨ht, ?_, h.packets, h.bound⟩
  rw [List.map_drop]
  exact (List.drop_suffix k _).trans h.newest

/-- A packet has been committed that has the number in its header. -/
theorem Recorded.appended {k : ℕ} {f : Frame} {text mono : CString} (h : Recorded m n C q history)
    (ht : Logged t n (C.drop k ++ [f]) (q + 1)) (hf : f.seq = q + 1)
    (hdata : f.data = (pkt.stampedLate text mono).wire) (htext : seqText q = some text) :
    Recorded t n (C.drop k ++ [f]) (q + 1) (history ++ committedSince m t) := by
  obtain ⟨hlt, hbytes⟩ := seqText_eq_some htext
  rw [committedSince_appended h.logged ht hf, hdata]
  refine ⟨ht, ?_, ?_, hlt⟩
  · rw [List.map_append, List.map_singleton, Frame.entry, hf, hdata, List.map_drop]
    obtain ⟨front, hfront⟩ := (List.drop_suffix k _).trans h.newest
    exact ⟨front, by rw [← hfront, List.append_assoc]⟩
  · obtain ⟨pkts, hhistory, hlength, hheaders⟩ := h.packets
    refine ⟨pkts ++ [pkt.stampedLate text mono], ?_, ?_, ?_⟩
    · rw [numbered, List.mapIdx_concat, hlength, hhistory]
      rfl
    · rw [List.length_append, hlength, List.length_singleton]
    · rw [List.map_append, hheaders, List.range_succ, List.map_append, List.map_singleton, List.map_singleton,
        Packet.transportSeq_stampedLate, hbytes]

/-- At each store of a write. -/
theorem Recorded.committing {text mono : CString} (h : Recorded m n C q history)
    (ht : Committing n C q (pkt.stampedLate text mono).wire t) (htext : seqText q = some text) :
    ∃ C' q', Recorded t n C' q' (history ++ committedSince m t) := by
  rcases ht with ⟨k, ht⟩ | ⟨k, f, hf, hdata, ht⟩
  · exact ⟨_, _, h.dropped ht⟩
  · exact ⟨_, _, h.appended ht hf hdata htext⟩

/-- Several writers, and every entry that has ever been committed. -/
structure Topic (ι : Type) where
  fleet : Fleet ι
  history : List (ℕ × List UInt8)

namespace Topic

variable [DecidableEq ι]

/-- What is committed is remembered. -/
def seen (σ : Topic ι) (τ : Fleet ι) : Topic ι :=
  ⟨τ, σ.history ++ committedSince σ.fleet.host.mem τ.host.mem⟩

/-- The process of a writer has died, and has left this host. -/
def died (σ : Fleet ι) (i : ι) (h : Host) : Fleet ι where
  host := h
  todo := Function.update σ.todo i []
  pending := Function.update σ.pending i none
  returned := σ.returned

/-- Another connection has left this arena. -/
def visited (σ : Fleet ι) (m : Mem) : Fleet ι := { σ with host := { σ.host with mem := m } }

/-- A step of the writers, which have the standard headers, a death, or a visit. -/
inductive Step (json : Yyjson Val) (mode : ArenaMode) (id : ι → CString) (data : ι → ℕ) (σ : Topic ι) :
    Topic ι → Prop where
  | writes (τ : Fleet ι) : Fleet.Step json mode (fun i => standardWriter (id i) (data i)) σ.fleet τ →
    Step json mode id data σ (σ.seen τ)
  /-- A death in front of the lock. -/
  | diesWaiting (i : ι) : Step json mode id data σ (σ.seen (died σ.fleet i σ.fleet.host))
  /-- A death in the critical section. -/
  | dies (i : ι) (pkt pkt' : Packet) (out : Buf) (h : Host) : mode = .shared →
    σ.fleet.pending i = some (pkt, pkt') →
    (∀ pkt'', lockedPhase json mode ((lock mode).exec σ.fleet.host.mem) σ.fleet.host.mono
      (standardWriter (id i) (data i)).leaves pkt' = .append pkt'' → pkt''.stats.serialSize < 2 ^ 63) →
    144 ≤ out.data → arenaSize σ.fleet.host.mem ≤ out.data →
    ((Locking.host mode).critical json mode out (standardWriter (id i) (data i)).leaves pkt').Crash σ.fleet.host h →
    Step json mode id data σ (σ.seen (died σ.fleet i h))
  | visits (v : Visit) : mode = .shared ∨ v = .clear → v.Small →
    Step json mode id data σ (σ.seen (visited σ.fleet ((v.prog mode).exec σ.fleet.host.mem)))
  | diesVisiting (v : Visit) (t : Mem) : mode = .shared → v.Small → (v.prog mode).Crash σ.fleet.host.mem t →
    Step json mode id data σ (σ.seen (visited σ.fleet t))

/-- Any interleaving, on an arena that was all zero. -/
def runs (json : Yyjson Val) (mode : ArenaMode) (id : ι → CString) (data : ι → ℕ) (program : ι → List Packet) :
    TransitionSystem (Topic ι) where
  init σ := (Fleet.runs json mode (fun i => standardWriter (id i) (data i)) program).init σ.fleet ∧ σ.history = []
  step := Step json mode id data

/-! ### The invariant -/

variable {id : ι → CString} {data : ι → ℕ} {program : ι → List Packet} {σ τ : Topic ι}

/-- The log is recorded, and the working page is the committed one, but for what deaths may
have left. -/
structure Inv (mode : ArenaMode) (σ : Topic ι) (n : ℕ) (C : List Frame) (q : ℕ) : Prop where
  recorded : Recorded σ.fleet.host.mem n C q σ.history
  ready : mode = .shared ∨ Ready σ.fleet.host.mem n C [] q

omit [DecidableEq ι] in
/-- A step that leaves the log as it is, but for its oldest frames. -/
theorem Inv.keeps {τ : Fleet ι} {k : ℕ} (h : σ.Inv mode n C q) (hτ : Logged τ.host.mem n (C.drop k) q)
    (hready : mode = .shared ∨ Ready τ.host.mem n (C.drop k) [] q) : ∃ C' q', (σ.seen τ).Inv mode n C' q' :=
  ⟨_, _, h.recorded.dropped hτ, hready⟩

omit [DecidableEq ι] in
/-- A write that returns. -/
theorem Inv.returns {τ : Fleet ι} {text mono : CString} (h : σ.Inv mode n C q)
    (hτ : Commits n C q (pkt.stampedLate text mono).wire τ.host.mem) (htext : seqText q = some text) :
    ∃ C' q', (σ.seen τ).Inv mode n C' q' := by
  rcases hτ with ⟨k, hτ⟩ | ⟨k, f, hf, hdata, hτ⟩
  · exact h.keeps hτ.logged (.inr hτ)
  · exact ⟨_, _, h.recorded.appended hτ.logged hf hdata htext, .inr hτ⟩

omit [DecidableEq ι] in
theorem Inv.room (h : σ.Inv mode n C q) : q + 2 < 2 ^ 64 := by
  have hle := h.recorded.bound
  norm_num at hle ⊢
  omega

/-- A step of the writers. -/
theorem Inv.writes {τ : Fleet ι} (hmode : mode ≠ .readonly) (h : σ.Inv mode n C q)
    (hstep : Fleet.Step json mode (fun i => standardWriter (id i) (data i)) σ.fleet τ) :
    ∃ C' q', (σ.seen τ).Inv mode n C' q' := by
  cases hstep with
  | ticks mono wall => exact h.keeps (k := 0) h.recorded.logged h.ready
  | begins i pkt pkt' rest h' hp ht hprocess =>
    have hmem : h'.mem = σ.fleet.host.mem := by
      rw [leaves_standardWriter, processPhase_standard] at hprocess
      cases hs : seqText (σ.fleet.host.heap (data i)) with
      | none =>
        rw [hs] at hprocess
        cases hprocess
      | some text =>
        rw [hs] at hprocess
        cases hprocess
        rfl
    refine h.keeps (k := 0) ?_ ?_
    · rw [Fleet.begun, hmem]
      exact h.recorded.logged
    · rw [Fleet.begun, hmem]
      exact h.ready
  | returns i pkt pkt' out hp hret hsize hlow hout =>
    obtain ⟨heval, hhost, -, -⟩ := Ledger.critical_released json mode out (standardWriter (id i) (data i)).leaves
      σ.fleet.host pkt'
    obtain ⟨-, c, hc, -⟩ := h.recorded.logged
    rw [hc.size] at hout
    rw [heval] at hret
    obtain ⟨text, htext, hcommits⟩ := post_of_wpc
      (critical_standard_wpc hmode h.recorded.logged h.ready hsize hlow hout) hret
    have hended : (σ.fleet.ended json mode (standardWriter (id i) (data i)).leaves out i pkt pkt').host =
        ((Locking.host mode).critical json mode out (standardWriter (id i) (data i)).leaves pkt').exec σ.fleet.host :=
      hhost
    rw [← hended] at hcommits
    exact h.returns hcommits htext

/-- A step keeps the invariant. -/
theorem Step.inv (hmode : mode ≠ .readonly) (h : σ.Inv mode n C q) (hstep : Step json mode id data σ τ) :
    ∃ C' q', τ.Inv mode n C' q' := by
  cases hstep with
  | writes τ hτ => exact h.writes hmode hτ
  | diesWaiting i => exact h.keeps (k := 0) h.recorded.logged h.ready
  | dies i pkt pkt' out h' hshared hp hsize hlow hout hcrash =>
    obtain ⟨-, c, hc, -⟩ := h.recorded.logged
    rw [hc.size] at hout
    rcases crash_of_wpc (critical_standard_wpc hmode h.recorded.logged h.ready hsize hlow hout)
      (.inl h.recorded.logged) hcrash with hl | ⟨text, htext, hcommitting⟩
    · exact h.keeps (k := 0) hl (.inl hshared)
    · obtain ⟨C', q', hr⟩ := h.recorded.committing hcommitting htext
      exact ⟨C', q', hr, .inl hshared⟩
  | visits v hv hsmall =>
    obtain ⟨k, hr⟩ := post_of_wpc (Visit.prog_wpc hmode h.recorded.logged h.ready hv hsmall h.room)
    exact h.keeps hr.logged (.inr hr)
  | diesVisiting v t hshared hsmall hcrash =>
    obtain ⟨k, hl⟩ := crash_of_wpc (Visit.prog_wpc hmode h.recorded.logged h.ready (.inl hshared) hsmall h.room)
      ⟨0, h.recorded.logged⟩ hcrash
    exact h.keeps hl (.inl hshared)

theorem isInvariant (hmode : mode ≠ .readonly) :
    (runs json mode id data program).IsInvariant fun σ => ∃ n C q, σ.Inv mode n C q where
  init := by
    rintro σ ⟨⟨⟨n, hn, hmem⟩, -⟩, hhistory⟩
    have hr : Ready σ.fleet.host.mem n [] [] 0 := by
      rw [hmem]
      exact reached_init mode hn
    refine ⟨n, [], 0, ⟨hr.logged, List.nil_suffix, ⟨[], hhistory, rfl, rfl⟩, Nat.zero_le _⟩, .inr hr⟩
  step := by
    rintro σ τ ⟨n, C, q, h⟩ hstep
    obtain ⟨C', q', h'⟩ := Step.inv hmode h hstep
    exact ⟨n, C', q', h'⟩

/-- **Headers number the packets**, in every state that any run reaches: the packets that have
ever been committed have the sequence numbers from one on, in order of their commits, and
their headers are the decimal forms of those less one, each of which there is once; and the
log is the newest of them. -/
theorem headers_number (hmode : mode ≠ .readonly) (hσ : (runs json mode id data program).Reach σ) :
    ∃ pkts : List Packet, σ.history = pkts.mapIdx (fun i pkt => (i + 1, pkt.wire)) ∧
      pkts.map Packet.transportSeq = (List.range pkts.length).map (fun i => some (decimal i)) ∧
      (pkts.map Packet.transportSeq).Nodup ∧
      logOf σ.fleet.host.mem (committedState σ.fleet.host.mem) <:+ σ.history := by
  obtain ⟨n, C, q, h⟩ := (isInvariant hmode).reach hσ
  obtain ⟨pkts, hhistory, hlength, hheaders⟩ := h.recorded.packets
  rw [← hlength] at hheaders
  refine ⟨pkts, hhistory, hheaders, ?_, ?_⟩
  · rw [hheaders]
    exact List.Nodup.map (fun i j he => decimal_injective (Option.some.inj he)) List.nodup_range
  · rw [h.recorded.logged.log_eq.1]
    exact h.recorded.newest

/-! ### One write -/

/-- A topic of 1000 bytes with one writer, which has a packet of one byte to write. -/
def opened : Topic Unit := ⟨⟨fresh, fun _ => [bare [7]], fun _ => none, []⟩, []⟩

/-- What the writer has at the lock. -/
def prepared : Packet := (bare [7]).stampedEarly (.ofString "0") (.ofString "w") (.ofString "0")

/-- The writer at the lock. -/
def waiting : Topic Unit := opened.seen (opened.fleet.begun () (bare [7]) prepared [] ((setHeap 0 1).exec fresh))

/-- The packet has been written. -/
def written : Topic Unit := waiting.seen
  (waiting.fleet.ended noJson .shared (standardWriter (.ofString "w") 0).leaves ⟨5000, 0⟩ () (bare [7]) prepared)

/-- The packet that is written. -/
theorem waiting_locked : lockedPhase noJson .shared ((lock .shared).exec waiting.fleet.host.mem)
    waiting.fleet.host.mono (standardWriter (.ofString "w") 0).leaves prepared =
      .append (prepared.stampedLate (.ofString "0") (.ofString "0")) := by
  have hhigh : (workingState ((lock .shared).exec waiting.fleet.host.mem)).seqHigh = 0 :=
    (lock_committed .shared fresh_ready).seqHigh_eq
  have hzero : seqText 0 = some (.ofString "0") := by decide +kernel
  rw [leaves_standardWriter, lockedPhase_standard, hhigh, hzero]
  rfl

theorem prepared_size : (prepared.stampedLate (.ofString "0") (.ofString "0")).stats.serialSize = 214 := by
  decide +kernel

theorem waiting_returns :
    ((Ledger.locking .shared).critical noJson .shared ⟨5000, 0⟩ (standardWriter (.ofString "w") 0).leaves prepared).eval
      ⟨waiting.fleet.host, 0, 0⟩ ≠ none ∧
    ∀ pkt, lockedPhase noJson .shared ((lock .shared).exec waiting.fleet.host.mem) waiting.fleet.host.mono
      (standardWriter (.ofString "w") 0).leaves prepared = .append pkt → pkt.stats.serialSize < 2 ^ 63 := by
  have hsize : ∀ pkt, lockedPhase noJson .shared ((lock .shared).exec waiting.fleet.host.mem)
      waiting.fleet.host.mono (standardWriter (.ofString "w") 0).leaves prepared = .append pkt →
      pkt.stats.serialSize < 2 ^ 63 := by
    rw [waiting_locked]
    rintro _ ⟨⟩
    rw [prepared_size]
    norm_num
  refine ⟨critical_returns _ (by decide) fresh_ready (by norm_num) ?_ hsize, hsize⟩
  rw [waiting_locked]
  exact fun h => Outcome.noConfusion h

/-- The writers of the topic. -/
abbrev oneWriter : TransitionSystem (Topic Unit) :=
  runs noJson .shared (fun _ => .ofString "w") (fun _ => 0) fun _ => [bare [7]]

theorem waiting_size : arenaSize waiting.fleet.host.mem = 1000 := fresh_ready.arenaSize_eq

theorem waiting_step : Fleet.Step noJson .shared (fun _ => standardWriter (.ofString "w") 0) opened.fleet
    waiting.fleet := by
  have hzero : seqText 0 = some (.ofString "0") := by decide +kernel
  have hbegins : processPhase (standardWriter (.ofString "w") 0).leaves fresh (bare [7]) =
      some (prepared, (setHeap 0 1).exec fresh) := by
    have hheap : fresh.heap 0 = 0 := rfl
    rw [leaves_standardWriter, processPhase_standard, hheap, hzero]
    rfl
  exact .begins () (bare [7]) prepared [] _ rfl rfl hbegins

theorem written_step : Fleet.Step noJson .shared (fun _ => standardWriter (.ofString "w") 0) waiting.fleet
    written.fleet := by
  refine .returns () (bare [7]) prepared ⟨5000, 0⟩ rfl waiting_returns.1 waiting_returns.2 (by norm_num) ?_
  rw [waiting_size]
  norm_num

theorem written_reach : oneWriter.Reach written := by
  have hfirst : oneWriter.Reach opened := .init ⟨⟨⟨1000, by norm_num, fresh_mem⟩, rfl, fun _ => rfl, rfl⟩, rfl⟩
  exact .step (.step hfirst (.writes _ waiting_step)) (.writes _ written_step)

theorem written_ready : ∃ f : Frame, Ready written.fleet.host.mem 1000 [f] [] 1 ∧
    added .shared waiting.fleet.host.mem written.fleet.host.mem = [f.entry] := by
  have hready := Fleet.ended_ready () (bare [7]) (by decide) fresh_ready waiting_returns.1 rfl
    (fun _ _ => by norm_num) waiting_returns.2 (by norm_num) (by rw [waiting_size]; norm_num)
  rw [waiting_locked] at hready
  rcases hready with ⟨pkt, f, -, -, -, -, hr, hadded⟩ | ⟨hno, -⟩
  · exact ⟨f, hr, hadded⟩
  · have hlarge := hno _ rfl
    rw [prepared_size] at hlarge
    omega

theorem written_history : written.history.length = 1 := by
  obtain ⟨f, -, hadded⟩ := written_ready
  have hfirst : waiting.history = [] := committedSince_dropped (k := 0) fresh_ready.logged fresh_ready.logged
  have hhistory : written.history = waiting.history ++ added .shared waiting.fleet.host.mem written.fleet.host.mem :=
    rfl
  rw [hhistory, hfirst]
  exact congrArg List.length hadded

/-- The packet has the number zero. -/
theorem headers_number_small : oneWriter.Reach written ∧ written.history.length = 1 ∧
    ∃ pkts : List Packet, written.history = pkts.mapIdx (fun i pkt => (i + 1, pkt.wire)) ∧
      pkts.map Packet.transportSeq = (List.range pkts.length).map (fun i => some (decimal i)) ∧
      (pkts.map Packet.transportSeq).Nodup ∧
      logOf written.fleet.host.mem (committedState written.fleet.host.mem) <:+ written.history :=
  ⟨written_reach, written_history, headers_number (by decide) written_reach⟩

end Topic

end AlephZero
