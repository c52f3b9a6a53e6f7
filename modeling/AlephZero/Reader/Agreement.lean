import AlephZero.Reader.Order

/-!
# A threaded reader and a synchronous one

The two kinds of reader have different code for the first packet. A threaded reader whose
pointer is no use jumps to the oldest packet; a synchronous one steps, or jumps to the newest
packet if that is how it goes on.

## The model

`Beside` is a threaded reader with all that others do, and a synchronous reader with the
same options, which is initialised in the same state, and is read, if `can_read` is true,
each time the thread handles a packet, at the memory of that time.

## What is proved

* `readIfCan_first`, `readIfCan_next` — what the synchronous reader reads when the thread
  handles its first packet, and each other one.
* `Beside.Inv.step` — the invariant, for one step.
* **`readers_agree`** — the two read the same packets, if with ITER_NEWEST there is one packet
  only when the thread jumps to the oldest one.
* `not_readers_agree` — otherwise they do not.
-/

namespace AlephZero

open ByteMem StoreProg Prog Transport

variable {mode : ArenaMode} {opts : ReaderOptions} {m m' : Mem} {n q : ℕ} {C : List Frame} {t : Transport}

/-! ### The two readers -/

/-- The synchronous reader is read, if it can read. -/
def ReaderSyncZc.readIfCan (m : Mem) (r : ReaderSyncZc) : ReaderSyncZc × List Read :=
  if r.canRead m then
    match r.readAlign m with
    | .ok r' => (r'.done, [⟨logOf m (workingState m), .ok (packetAt m r'.transport)⟩])
    | .error e => (r, [⟨logOf m (workingState m), .error e⟩])
  else (r, [])

/-- A threaded reader, and a synchronous one with its reads so far. -/
structure Beside where
  thread : ThreadReading
  sync : ReaderSyncZc
  reads : List Read

namespace Beside

/-- What the synchronous reader does when the threaded one, or another connection, has made
a step: it is initialised with it, and read with each packet that is handled. -/
def follow (p : Beside) (σ : ThreadReading) : Beside :=
  if p.thread.pc = .opened ∧ σ.pc = .starting then
    ⟨σ, (ReaderSyncZc.initLocked p.thread.reader.opts p.thread.reader.transport).eval p.thread.mem, p.reads⟩
  else if p.thread.reads.length < σ.reads.length then
    ⟨σ, (p.sync.readIfCan σ.mem).1, p.reads ++ (p.sync.readIfCan σ.mem).2⟩
  else { p with thread := σ }

/-- The runs of two readers with these options. -/
def runs (mode : ArenaMode) (opts : ReaderOptions) : TransitionSystem Beside where
  init p := (ThreadReading.runs mode opts).init p.thread ∧ p.reads = []
  step p p' := ∃ σ, ThreadReading.Step p.thread σ ∧ p' = p.follow σ

/-- There is one packet only, if the thread is to jump to the oldest one and goes on to the
newest. -/
def OneWay (p : Beside) : Prop :=
  p.thread.reader.opts.iter = .newest → p.thread.reader.reset p.thread.mem = true → p.thread.log.length = 1

/-- The runs in which the first packet is handled only so. -/
def oneWay (mode : ArenaMode) (opts : ReaderOptions) : TransitionSystem Beside where
  init := (runs mode opts).init
  step p p' := (runs mode opts).step p p' ∧
    (p.thread.pc.first = true → p'.thread.reads ≠ p.thread.reads → p.OneWay)

end Beside

/-! ### The first packet -/

theorem arena_advance (m : Mem) (t : Transport) (iter : ReaderIter) : (advance m t iter).arena = t.arena := by
  cases iter <;> simp only [advance, stepNext, jumpTail, moved] <;> split_ifs <;> rfl

theorem arena_handleFirst (r : ReaderZc) (m : Mem) : (r.handleFirst m).1.transport.arena = r.transport.arena := by
  simp only [ReaderZc.handleFirst, jumpHead, moved]
  split_ifs <;> rfl

theorem Transport.Ready.hasNext_eq (h : Ready m n C [] q) (t : Transport) :
    hasNext m t = (!C.isEmpty && decide (t.seq < q)) := by
  rw [hasNext, h.empty_eq, h.page.2]

/-- What a jump needs to know of a page is the same where the frames are the same. -/
theorem Transport.Ready.iterValid_congr (h : Ready m n C [] q) (h' : Ready m' n C [] q) (hne : C ≠ [])
    (t : Transport) : iterValid m t = iterValid m' t := by
  cases C with
  | nil => exact absurd rfl hne
  | cons g rest =>
    rw [iterValid, iterValid, h.page.2, h'.page.2, ← h.page.1.page.seqLow_eq, ← h'.page.1.page.seqLow_eq]

/-- A pointer that is no use is older than all frames. -/
theorem ReaderZc.lt_of_reset {r : ReaderZc} (h : Ready m n C [] q) (hne : C ≠ []) (hle : r.transport.seq ≤ q)
    (hempty : r.startedEmpty = true → r.transport.seq = 0) (hr : r.reset m = true) :
    r.transport.seq < (workingState m).seqLow := by
  rw [reset, Bool.or_eq_true] at hr
  rcases hr with hr | hr
  · rw [hempty hr]
    exact h.page.1.page.pos hne
  · rw [iterValid, h.page.2, decide_eq_true hle, Bool.and_true, Bool.not_eq_true', decide_eq_false_iff_not] at hr
    exact not_le.mp hr

/-- The pointer of the synchronous reader, when that of the threaded one jumps to the oldest
packet. -/
theorem advance_of_reset {iter : ReaderIter} (h : Ready m n C [] q) (hne : C ≠ [])
    (hlt : t.seq < (workingState m).seqLow) (hone : iter = .newest → C.length = 1) :
    hasNext m t = true ∧ advance m t iter = t.moved (jumpHead m t) := by
  cases C with
  | nil => exact absurd rfl hne
  | cons g rest =>
    have hle := h.page.1.page.seq_le List.mem_cons_self
    have hnext : hasNext m t = true := by
      rw [h.hasNext_eq, decide_eq_true (by rw [← h.page.2]; omega)]
      rfl
    refine ⟨hnext, ?_⟩
    have hempty : empty m = false := h.empty_eq
    cases iter with
    | next =>
      have hstep : stepNext m t = jumpHead m t := by
        rw [stepNext, jumpHead, hnext, hempty]
        simp only [Bool.not_true, Bool.false_eq_true, if_false, if_pos hlt]
      rw [advance, hstep]
    | newest =>
      obtain rfl : rest = [] := List.length_eq_zero_iff.mp (Nat.succ.inj (hone rfl))
      have htail : jumpTail m t = .ok (t.moveTo g) := jumpTail_eq rfl (show Holds m n _ ([] ++ [g]) from h.page.1)
      rw [advance, htail, jumpHead_cons rfl (.refl _) h.page.1 rfl]

/-- What the synchronous reader reads, if it has to step. -/
theorem ReaderSyncZc.readIfCan_stepped {r : ReaderSyncZc} (hnext : hasNext m r.transport = true)
    (hs : r.shouldStep m = true) :
    r.readIfCan m = ((r.stepped m).done,
      [⟨logOf m (workingState m), .ok (packetAt m (r.stepped m).transport)⟩]) := by
  have hempty : empty m = false := by
    rw [hasNext, Bool.and_eq_true, Bool.not_eq_true'] at hnext
    exact hnext.1
  have hcan : r.canRead m = true := by
    rw [canRead, nonempty, hnext, hempty]
    exact ite_self true
  rw [readIfCan, if_pos hcan, readAlign, hempty, hnext, hs]
  simp only [Bool.false_eq_true, if_false, Bool.not_true, Bool.and_false, if_true]

/-- **The first packet.** The synchronous reader reads what the thread handles, or neither
does anything. -/
theorem readIfCan_first {r r' : ReaderZc} {handles : Bool} (h : Ready m n C [] q) (hne : C ≠ [])
    (hle : r.transport.seq ≤ q) (hempty : r.startedEmpty = true → r.transport.seq = 0)
    (hone : r.opts.iter = .newest → r.reset m = true → C.length = 1) (hr : r.handleFirst m = (r', handles)) :
    if handles then
      ReaderSyncZc.readIfCan m ⟨r.transport, r.opts, false⟩ = (⟨r'.transport, r'.opts, true⟩,
        [⟨logOf m (workingState m), .ok (packetAt m r'.transport)⟩])
    else r' = r ∧ r.opts.init = .awaitNew := by
  rw [ReaderZc.handleFirst] at hr
  cases hreset : r.reset m with
  | true =>
    rw [hreset] at hr
    cases hr
    have hlt := ReaderZc.lt_of_reset h hne hle hempty hreset
    obtain ⟨hnext, hadvance⟩ := advance_of_reset h hne hlt fun hi => hone hi hreset
    have hinvalid : iterValid m r.transport = false := by
      rw [iterValid, decide_eq_false (not_le.mpr hlt), Bool.false_and]
    have hs : ReaderSyncZc.shouldStep m ⟨r.transport, r.opts, false⟩ = true := by
      rw [ReaderSyncZc.shouldStep, hinvalid]
      exact Bool.or_true _
    simp only [Bool.true_or, if_true, ReaderSyncZc.readIfCan_stepped (r := ⟨r.transport, r.opts, false⟩) hnext hs,
      ReaderSyncZc.stepped, ReaderSyncZc.done, hadvance]
  | false =>
    rw [hreset] at hr
    cases hr
    have hvalid : iterValid m r.transport = true := by
      rw [ReaderZc.reset, Bool.or_eq_false_iff, Bool.not_eq_false'] at hreset
      exact hreset.2
    have hnonempty : empty m = false := by rw [h.empty_eq, List.isEmpty_eq_false_iff.mpr hne]
    cases hinit : r.opts.init with
    | awaitNew => exact ⟨rfl, rfl⟩
    | oldest | mostRecent =>
      simp [ReaderSyncZc.readIfCan, ReaderSyncZc.canRead, ReaderSyncZc.readAlign, ReaderSyncZc.shouldStep,
        ReaderSyncZc.behind, ReaderSyncZc.done, nonempty, hinit, hvalid, hnonempty]

/-- **Each other packet.** -/
theorem readIfCan_next {r : ReaderZc} {s : ReaderSyncZc} (ht : s.transport = r.transport) (ho : s.opts = r.opts)
    (hb : s.behind = true) (hnext : hasNext m r.transport = true) :
    s.readIfCan m = (⟨(r.handleNext m).transport, r.opts, true⟩,
      [⟨logOf m (workingState m), .ok (packetAt m (r.handleNext m).transport)⟩]) := by
  have hs : s.shouldStep m = true := by rw [ReaderSyncZc.shouldStep, hb, Bool.true_or]
  rw [← ht] at hnext
  rw [ReaderSyncZc.readIfCan_stepped hnext hs, ReaderSyncZc.stepped, ReaderSyncZc.done, ReaderZc.handleNext, ht, ho]

namespace Beside

/-! ### The invariant -/

/-- Both readers have read the same packets, and have their pointers at the same place. -/
structure Inv (mode : ArenaMode) (p : Beside) (n : ℕ) (C : List Frame) (q : ℕ) : Prop where
  ready : Ready p.thread.mem n C [] q
  mode : p.thread.mode = mode
  reads : p.reads = p.thread.reads
  closed : p.thread.pc = .closed ∨ p.thread.pc = .opened → p.thread.reader.transport.seq = 0
  first : p.thread.pc.first = true → p.sync = ⟨p.thread.reader.transport, p.thread.reader.opts, false⟩ ∧
    p.thread.reader.transport.seq ≤ q ∧ (p.thread.reader.startedEmpty = true → p.thread.reader.transport.seq = 0)
  later : p.thread.pc.later = true → p.sync.transport = p.thread.reader.transport ∧
    p.sync.opts = p.thread.reader.opts ∧ p.sync.behind = true

variable {p : Beside} {σ : ThreadReading}

theorem follow_keeps (hpc : p.thread.pc = .opened → σ.pc ≠ .starting) (hreads : σ.reads = p.thread.reads) :
    p.follow σ = { p with thread := σ } := by
  rw [follow, if_neg fun h => hpc h.1 h.2, if_neg (by rw [hreads]; exact lt_irrefl _)]

theorem follow_delivers {e : Read} (hpc : p.thread.pc ≠ .opened) (hreads : σ.reads = p.thread.reads ++ [e]) :
    p.follow σ = ⟨σ, (p.sync.readIfCan σ.mem).1, p.reads ++ (p.sync.readIfCan σ.mem).2⟩ := by
  have hlength : p.thread.reads.length < σ.reads.length := by
    rw [hreads, List.length_append]
    exact Nat.lt_succ_self _
  rw [follow, if_neg fun h => hpc h.1, if_pos hlength]

/-- A step in which nothing is read. -/
theorem Inv.keeps {C' : List Frame} {q' : ℕ} (h : p.Inv mode n C q) (hready : Ready σ.mem n C' [] q') (hq : q ≤ q')
    (hreader : σ.reader = p.thread.reader) (hreads : σ.reads = p.thread.reads)
    (hclosed : σ.pc = .closed ∨ σ.pc = .opened → p.thread.pc = .closed ∨ p.thread.pc = .opened)
    (hfirst : σ.pc.first = true → p.thread.pc.first = true) (hlater : σ.pc.later = true → p.thread.pc.later = true) :
    (p.follow σ).Inv mode n C' q' := by
  have hpc : p.thread.pc = .opened → σ.pc ≠ .starting := by
    intro ho hs
    have hf := hfirst (by rw [hs]; rfl)
    rw [ho] at hf
    cases hf
  rw [follow_keeps hpc hreads]
  refine ⟨hready, ?_, h.reads.trans hreads.symm, fun hc => ?_, fun hf => ?_, fun hl => ?_⟩
  · have hmode := h.mode
    rw [ThreadReading.mode] at hmode ⊢
    rw [hreader, hmode]
  · rw [hreader]
    exact h.closed (hclosed hc)
  · obtain ⟨hsync, hle, hempty⟩ := h.first (hfirst hf)
    rw [hreader]
    exact ⟨hsync, hle.trans hq, hempty⟩
  · rw [hreader]
    exact h.later (hlater hl)

/-- The thread has a connection. -/
theorem Inv.opens (h : p.Inv mode n C q) (hready : Ready σ.mem n C [] q) (hpc : σ.pc = .opened)
    (hreads : σ.reads = p.thread.reads)
    (ht : σ.reader.transport = { arena := p.thread.reader.transport.arena }) : (p.follow σ).Inv mode n C q := by
  rw [follow_keeps (fun _ hs => by rw [hpc] at hs; cases hs) hreads]
  refine ⟨hready, ?_, h.reads.trans hreads.symm, fun _ => ?_, fun hf => ?_, fun hl => ?_⟩
  · rw [ThreadReading.mode, ht]
    exact h.mode
  · rw [ht]
  · rw [hpc] at hf
    cases hf
  · rw [hpc] at hl
    cases hl

/-- The two are initialised. -/
theorem Inv.inits (h : p.Inv mode n C q) (hpc : p.thread.pc = .opened) :
    (p.follow { p.thread.runTo (ReaderZc.initLocked p.thread.reader.opts p.thread.reader.transport) .starting with
      reader := (ReaderZc.initLocked p.thread.reader.opts p.thread.reader.transport).eval p.thread.mem
      start := p.thread.starting p.thread.mode p.thread.reader.opts.init }).Inv mode n C q := by
  have hlock : Ready ((lock p.thread.mode).exec p.thread.mem) n C [] q := lock_committed _ h.ready
  have heval := ReaderZc.initLocked_eval p.thread.reader.opts hlock
  have hseq := h.closed (.inr hpc)
  rw [follow, if_pos ⟨hpc, rfl⟩, heval]
  refine ⟨unlock_committed _ hlock, ?_, h.reads, ?_, fun _ => ⟨rfl, ?_, fun hempty => ?_⟩,
    fun hl => Bool.noConfusion hl⟩
  · rw [← h.mode]
    exact congrArg Arena.mode (arena_jumpInit _ p.thread.reader.transport p.thread.reader.opts.init)
  · rintro (hc | hc) <;> cases hc
  · exact (jumpInit_aim hlock hseq p.thread.reader.opts.init).seq_le
  · have hjump := jumpInit_of_empty (t := p.thread.reader.transport) p.thread.reader.opts.init
      (hlock.empty_eq.trans hempty)
    exact (congrArg Transport.seq hjump).trans hseq

/-- Both read a packet. -/
theorem Inv.delivers {r : ReaderZc} (h : p.Inv mode n C q) (hpc : p.thread.pc ≠ .opened) {w : WaitPc}
    (hmode : r.transport.arena.mode = mode)
    (hread : p.sync.readIfCan (w.leave.exec p.thread.mem) = (⟨r.transport, r.opts, true⟩,
      [⟨logOf (w.leave.exec p.thread.mem) (workingState (w.leave.exec p.thread.mem)),
        .ok (packetAt (w.leave.exec p.thread.mem) r.transport)⟩])) :
    (p.follow ((p.thread.runTo w.leave .handling).deliver r.transport r .handling)).Inv mode n C q := by
  have hmem : ((p.thread.runTo w.leave .handling).deliver r.transport r .handling).mem = w.leave.exec p.thread.mem :=
    rfl
  rw [follow_delivers hpc rfl, hmem, hread]
  refine ⟨leave_committed h.ready w, hmode, ?_, ?_, fun hf => Bool.noConfusion hf, fun _ => ⟨rfl, rfl, ?_⟩⟩
  · rw [h.reads]
    rfl
  · rintro (hc | hc) <;> cases hc
  · exact Bool.true_or _

/-- The thread handles its first packet, or begins to wait for the next one. -/
theorem Inv.handleFirst {w : WaitPc} {r : ReaderZc} {handles : Bool} (h : p.Inv mode n C q)
    (hpc : p.thread.pc = .wait .nonempty w)
    (hp : Predicate.nonempty.holds p.thread.mem p.thread.reader.transport = true)
    (hr : p.thread.reader.handleFirst (w.leave.exec p.thread.mem) = (r, handles))
    (hone : handles = true → p.OneWay) :
    (p.follow (if handles then (p.thread.runTo w.leave .handling).deliver r.transport r .handling
      else { p.thread.runTo w.leave (.wait .hasNext .entering) with reader := r })).Inv mode n C q := by
  have hne : C ≠ [] := by
    rw [Predicate.holds, Transport.nonempty, h.ready.empty_eq] at hp
    rintro rfl
    cases hp
  have hleave := leave_committed h.ready w
  obtain ⟨hsync, hle, hempty⟩ := h.first (by rw [hpc]; rfl)
  have hreset : p.thread.reader.reset (w.leave.exec p.thread.mem) = p.thread.reader.reset p.thread.mem := by
    rw [ReaderZc.reset, ReaderZc.reset, hleave.iterValid_congr h.ready hne]
  have hlog : p.thread.log.length = C.length := by rw [Reading.log, h.ready.log_eq, List.length_map]
  have hread := readIfCan_first hleave hne hle hempty (fun hi hs => by
    have hhandles : handles = true := by
      have hsnd := congrArg Prod.snd hr
      rw [ReaderZc.handleFirst, hs] at hsnd
      exact hsnd.symm
    rw [hreset] at hs
    rw [← hlog]
    exact hone hhandles hi hs) hr
  have hopened : p.thread.pc ≠ .opened := by
    rw [hpc]
    exact fun he => ThreadPc.noConfusion he
  cases handles with
  | true =>
    rw [if_pos rfl] at hread ⊢
    refine h.delivers hopened ?_ (hsync ▸ hread)
    have harena := arena_handleFirst p.thread.reader (w.leave.exec p.thread.mem)
    rw [hr] at harena
    rw [← h.mode]
    exact congrArg Arena.mode harena
  | false =>
    rw [if_neg Bool.false_ne_true] at hread ⊢
    obtain ⟨rfl, hinit⟩ := hread
    have hfollow := follow_keeps (p := p)
      (σ := { p.thread.runTo w.leave (.wait .hasNext .entering) with reader := p.thread.reader })
      (fun he => absurd he hopened) rfl
    rw [hfollow]
    refine ⟨hleave, h.mode, h.reads, ?_, fun hf => Bool.noConfusion hf, fun _ => ?_⟩
    · rintro (hc | hc) <;> cases hc
    · rw [hsync]
      refine ⟨rfl, rfl, ?_⟩
      rw [ReaderSyncZc.behind, hinit]
      rfl

/-- The thread handles its next packet. -/
theorem Inv.handleNext {w : WaitPc} (h : p.Inv mode n C q) (hpc : p.thread.pc = .wait .hasNext w)
    (hp : Predicate.hasNext.holds p.thread.mem p.thread.reader.transport = true) :
    (p.follow ((p.thread.runTo w.leave .handling).deliver
      (p.thread.reader.handleNext (w.leave.exec p.thread.mem)).transport
      (p.thread.reader.handleNext (w.leave.exec p.thread.mem)) .handling)).Inv mode n C q := by
  have hleave := leave_committed h.ready w
  obtain ⟨ht, ho, hb⟩ := h.later (by rw [hpc]; rfl)
  have hnext : hasNext (w.leave.exec p.thread.mem) p.thread.reader.transport = true := by
    rw [Predicate.holds, h.ready.hasNext_eq] at hp
    rw [hleave.hasNext_eq]
    exact hp
  have hopened : p.thread.pc ≠ .opened := by
    rw [hpc]
    exact fun he => ThreadPc.noConfusion he
  refine h.delivers hopened ?_ (readIfCan_next ht ho hb hnext)
  rw [← h.mode]
  exact congrArg Arena.mode (arena_advance _ _ _)

/-- The thread waits. -/
theorem Inv.waits {pred : Predicate} {w w' : WaitPc} (h : p.Inv mode n C q) (hpc : p.thread.pc = .wait pred w) :
    (p.follow { p.thread with pc := .wait pred w' }).Inv mode n C q := by
  refine h.keeps h.ready le_rfl rfl rfl ?_ (fun hf => ?_) fun hl => ?_
  · rintro (hc | hc) <;> cases hc
  · rw [hpc]
    cases pred <;> exact hf
  · rw [hpc]
    cases pred <;> exact hl

/-- A step keeps the invariant. -/
theorem Inv.step {p' : Beside} (hmode : mode ≠ .readonly) (h : p.Inv mode n C q)
    (hs : (oneWay mode opts).step p p') : ∃ C' q', p'.Inv mode n C' q' := by
  obtain ⟨⟨σ, hσ, rfl⟩, hone⟩ := hs
  cases hσ with
  | others ops hfree hsmall hq =>
    rw [h.mode] at *
    obtain ⟨C', q', h', hl⟩ := others_later hmode h.ready hsmall hq
    exact ⟨C', q', h.keeps h' hl.1 rfl rfl id id id⟩
  | opens hpc =>
    exact ⟨C, q, h.opens (open_committed h.ready) rfl rfl (open_eval _ p.thread.mem)⟩
  | inits hpc => exact ⟨C, q, h.inits hpc⟩
  | main hpc =>
    refine ⟨C, q, h.keeps (lock_committed _ h.ready) le_rfl rfl rfl ?_ (fun _ => by rw [hpc]; rfl) ?_⟩
    · rintro (hc | hc) <;> cases hc
    · exact fun hl => Bool.noConfusion hl
  | sleep pred w hpc hw _ _ => exact ⟨C, q, h.waits hpc⟩
  | wake pred hpc => exact ⟨C, q, h.waits hpc⟩
  | fail pred w hpc hw =>
    refine ⟨C, q, h.keeps (unlock_committed _ (leave_committed h.ready w)) le_rfl rfl rfl ?_ ?_ ?_⟩
    · rintro (hc | hc) <;> cases hc
    · exact fun hf => Bool.noConfusion hf
    · exact fun hl => Bool.noConfusion hl
  | first w r handles hpc hw hp hr =>
    refine ⟨C, q, h.handleFirst hpc hp hr ?_⟩
    rintro rfl
    refine hone (by rw [hpc]; rfl) ?_
    rw [if_pos rfl, follow_delivers (by rw [hpc]; exact fun he => ThreadPc.noConfusion he) rfl]
    exact fun he => List.cons_ne_nil _ _ (List.self_eq_append_right.mp he.symm)
  | next w hpc hw hp => exact ⟨C, q, h.handleNext hpc hp⟩
  | release hpc =>
    refine ⟨C, q, h.keeps (unlock_committed _ h.ready) le_rfl rfl rfl ?_ ?_ fun _ => by rw [hpc]; rfl⟩
    · rintro (hc | hc) <;> cases hc
    · exact fun hf => Bool.noConfusion hf
  | relock hpc =>
    refine ⟨C, q, h.keeps (lock_committed _ h.ready) le_rfl rfl rfl ?_ ?_ fun _ => by rw [hpc]; rfl⟩
    · rintro (hc | hc) <;> cases hc
    · exact fun hf => Bool.noConfusion hf
  | handled hpc =>
    refine ⟨C, q, h.keeps h.ready le_rfl rfl rfl ?_ ?_ fun _ => by rw [hpc]; rfl⟩
    · rintro (hc | hc) <;> cases hc
    · exact fun hf => Bool.noConfusion hf

theorem isInvariant (hmode : mode ≠ .readonly) :
    (oneWay mode opts).IsInvariant fun p => ∃ n C q, p.Inv mode n C q where
  init := by
    rintro p ⟨⟨n, hn, hp⟩, hreads⟩
    have hr : Ready p.thread.mem n [] [] 0 := by
      rw [hp, ThreadReading.closed_mem]
      exact reached_init mode hn
    refine ⟨n, [], 0, hr, ?_, ?_, fun _ => ?_, ?_, ?_⟩ <;> rw [hp]
    · rfl
    · exact hreads
    · rfl
    · exact fun hf => Bool.noConfusion hf
    · exact fun hl => Bool.noConfusion hl
  step := by
    rintro p p' ⟨n, C, q, h⟩ hs
    obtain ⟨C', q', h'⟩ := h.step hmode hs
    exact ⟨n, C', q', h'⟩

/-- **Threaded and synchronous readers agree**, in every run, with any of the three ways to
begin and of the two to go on, and whatever others write and clear in between, in which there
is one packet only when the thread jumps to the oldest one and is to go on to the newest. -/
theorem readers_agree (hmode : mode ≠ .readonly) (hp : (oneWay mode opts).Reach p) : p.reads = p.thread.reads := by
  obtain ⟨n, C, q, h⟩ := (isInvariant hmode).reach hp
  exact h.reads

/-! ### A transport that is empty at first -/

theorem follow_thread (p : Beside) (σ : ThreadReading) : (p.follow σ).thread = σ := by
  rw [follow]
  split_ifs <;> rfl

/-- A step of the thread, or of others, in which nothing is read. -/
theorem exists_follow (hp : (oneWay mode opts).Reach p) (hσ : ThreadReading.Step p.thread σ)
    (hreads : σ.reads = p.thread.reads) : ∃ p', (oneWay mode opts).Reach p' ∧ p'.thread = σ := by
  refine ⟨p.follow σ, .step hp ⟨⟨σ, hσ, rfl⟩, fun _ hne => ?_⟩, follow_thread p σ⟩
  rw [follow_thread] at hne
  exact absurd hreads hne

theorem initLocked_committed (opts : ReaderOptions) (t : Transport) (h : Ready m n C [] q) :
    Ready ((ReaderZc.initLocked opts t).exec m) n C [] q := unlock_committed _ (lock_committed _ h)

/-- Where a write puts its frame. -/
theorem append_off {payload : List UInt8} {off : ℕ} (hmode : mode ≠ .readonly) (h : Ready m n C [] q)
    (hq : q + 2 < 2 ^ 64) (hlen : payload.length < 2 ^ 63)
    (hr : (append mode payload).eval m = some (.ok off)) : off = slotOff n (40 + payload.length) C := by
  have heval : (append mode payload).eval m = (Transport.alloc mode payload.length).eval m := by
    simp only [append, eval_bind]
    split
    · simp only [eval_bind, eval_pure]
    · rfl
  rw [heval] at hr
  rcases post_of_wpc (alloc_ready hmode h hq hlen) with ⟨-, hno, -⟩ | ⟨-, f, hf, ha⟩
  · rw [hr] at hno
    cases hno
  · rw [hr] at hf
    cases hf
    rw [ha.off, List.append_nil]

/-- The first packet of one byte, and the second one, in a transport of 1000 bytes. -/
theorem exists_written (b : UInt8) (h : Ready m 1000 C [] q) (hC : C = [] ∨ ∃ f₁ : Frame, C = [f₁] ∧ f₁.off = 144 ∧
    f₁.data.length = 1) (hq : q + 2 < 2 ^ 64) : ∃ f : Frame, f.seq = q + 1 ∧ f.data.length = 1 ∧
      (C = [] → f.off = 144) ∧ Ready ((append .shared [b]).exec m) 1000 (C ++ [f]) [] (q + 1) := by
  have hshared : ArenaMode.shared ≠ .readonly := by decide
  have happend := append_ready hshared h hq (show [b].length < 2 ^ 63 by norm_num)
  rcases post_of_wpc happend with ⟨hlt, -⟩ | ⟨-, f, hok, hseq, hdata, hr⟩
  · simp at hlt
  have hoff := append_off hshared h hq (by norm_num) hok
  have hkept : kept 1000 [b].length (C ++ []) = C := by
    rcases hC with rfl | ⟨f₁, rfl, hoff₁, hdata₁⟩
    · exact List.drop_nil
    · have hslot : slotOff 1000 (40 + 1) [f₁] = 192 := by simp [slotOff, Frame.stop, hoff₁, hdata₁, maxAlign, wrap]
      simp [kept, evictions, hslot, evictCount, Evicts, Frame.stop, hoff₁, hdata₁]
  rw [hkept] at hr
  refine ⟨f, hseq, ?_, ?_, hr⟩
  · rw [hdata, List.length_singleton]
  · rintro rfl
    exact hoff

/-- Two packets of one byte are written to a transport of 1000 bytes that is empty. -/
theorem exists_two_written (h : Ready m 1000 [] [] 0) : ∃ f₁ f₂ : Frame, f₁.seq ≠ f₂.seq ∧
    Ready ((others .shared [.write [1], .write [2]]).exec m) 1000 [f₁, f₂] [] 2 := by
  have hlock := lock_committed .shared h
  obtain ⟨f₁, hseq₁, hlen₁, hoff₁, hr₁⟩ := exists_written 1 hlock (.inl rfl) (by norm_num)
  obtain ⟨f₂, hseq₂, -, -, hr₂⟩ := exists_written 2 hr₁ (.inr ⟨f₁, rfl, hoff₁ rfl, hlen₁⟩) (by norm_num)
  have hexec : (others .shared [.write [1], .write [2]]).exec m = (unlock .shared).exec
      ((append .shared [2]).exec ((append .shared [1]).exec ((lock .shared).exec m))) := by
    simp only [others, runOps, Prog.exec_bind, Prog.exec_pure]
  refine ⟨f₁, f₂, ?_, ?_⟩
  · rw [hseq₁, hseq₂]
    norm_num
  · rw [hexec]
    exact unlock_committed _ hr₂

/-- Where the thread is, with nothing read. -/
structure At (p : Beside) (pc : ThreadPc) (r : ReaderZc) (C : List Frame) (q : ℕ) : Prop where
  ready : Ready p.thread.mem 1000 C [] q
  pc : p.thread.pc = pc
  reader : p.thread.reader = r
  reads : p.thread.reads = []

/-- The thread is in front of its first packet. -/
theorem exists_await (opts : ReaderOptions) : ∃ (p : Beside) (f₁ f₂ : Frame), (oneWay .shared opts).Reach p ∧
    f₁.seq ≠ f₂.seq ∧ p.At (.wait .nonempty .entering) ⟨{ arena := ⟨1000, .shared⟩ }, opts, true⟩ [f₁, f₂] 2 := by
  obtain ⟨p₀, hp₀, h₀⟩ : ∃ p, (oneWay .shared opts).Reach p ∧
      p.At .closed ⟨{ arena := ⟨1000, .shared⟩ }, opts, false⟩ [] 0 := by
    refine ⟨⟨ThreadReading.closed .shared 1000 opts, ⟨{ arena := ⟨1000, .shared⟩ }, opts, false⟩, []⟩,
      .init ⟨⟨1000, by norm_num, rfl⟩, rfl⟩, ?_, rfl, rfl, rfl⟩
    rw [ThreadReading.closed_mem]
    exact reached_init .shared (by norm_num)
  -- the reader is opened
  obtain ⟨p₁, hp₁, h₁⟩ : ∃ p, (oneWay .shared opts).Reach p ∧
      p.At .opened ⟨{ arena := ⟨1000, .shared⟩ }, opts, false⟩ [] 0 := by
    obtain ⟨p, hp, ht⟩ := exists_follow hp₀ (.opens h₀.pc) rfl
    refine ⟨p, hp, ?_, ?_, ?_, ?_⟩ <;> rw [ht]
    · exact open_committed h₀.ready
    · simp only [Reading.runTo]
    · simp only [Reading.runTo, open_eval, h₀.reader]
    · exact h₀.reads
  -- it is initialised, and waits
  obtain ⟨p₂, hp₂, h₂⟩ : ∃ p, (oneWay .shared opts).Reach p ∧
      p.At .starting ⟨{ arena := ⟨1000, .shared⟩ }, opts, true⟩ [] 0 := by
    obtain ⟨p, hp, ht⟩ := exists_follow hp₁ (.inits h₁.pc) rfl
    have hlock := lock_committed .shared h₁.ready
    have heval := ReaderZc.initLocked_eval (t := { arena := ⟨1000, .shared⟩ }) opts hlock
    have hjump := jumpInit_of_empty (t := { arena := ⟨1000, .shared⟩ }) opts.init hlock.empty_eq
    refine ⟨p, hp, ?_, ?_, ?_, ?_⟩ <;> rw [ht]
    · exact initLocked_committed _ _ h₁.ready
    · simp only [Reading.runTo]
    · simp only [h₁.reader]
      rw [heval, hjump]
      rfl
    · exact h₁.reads
  obtain ⟨f₁, f₂, hne, hwritten⟩ := exists_two_written h₂.ready
  obtain ⟨p₃, hp₃, h₃⟩ : ∃ p, (oneWay .shared opts).Reach p ∧
      p.At .starting ⟨{ arena := ⟨1000, .shared⟩ }, opts, true⟩ [f₁, f₂] 2 := by
    have hmode : p₂.thread.mode = .shared := by rw [ThreadReading.mode, h₂.reader]
    have hroom : (workingState p₂.thread.mem).seqHigh + 2 + 1 < 2 ^ 64 := by
      rw [h₂.ready.seqHigh_eq]
      norm_num
    obtain ⟨p, hp, ht⟩ := exists_follow hp₂ (.others [.write [1], .write [2]] (by rw [h₂.pc]; rfl)
      (by simp [Transport.Small]) hroom) rfl
    refine ⟨p, hp, ?_, ?_, ?_, ?_⟩ <;> rw [ht]
    · rw [hmode]
      exact hwritten
    · exact h₂.pc
    · exact h₂.reader
    · exact h₂.reads
  obtain ⟨p, hp, ht⟩ := exists_follow hp₃ (.main h₃.pc) rfl
  refine ⟨p, f₁, f₂, hp, hne, ?_, ?_, ?_, ?_⟩ <;> rw [ht]
  · exact lock_committed _ h₃.ready
  · simp only [Reading.runTo]
  · exact h₃.reader
  · exact h₃.reads

/-- The first read of the synchronous reader. -/
theorem readIfCan_two {f₁ f₂ : Frame} (h : Ready m n [f₁, f₂] [] q) (ht : t.seq = 0) (opts : ReaderOptions) :
    (ReaderSyncZc.readIfCan m ⟨t, opts, false⟩).2 = [⟨logOf m (workingState m),
      .ok (some (match opts.iter with | .next => f₁.entry | .newest => f₂.entry))⟩] := by
  have hlt : t.seq < (workingState m).seqLow := by
    rw [ht]
    exact h.page.1.page.pos (List.cons_ne_nil _ _)
  have hinvalid : iterValid m t = false := by rw [iterValid, decide_eq_false (not_le.mpr hlt), Bool.false_and]
  have hs : ReaderSyncZc.shouldStep m ⟨t, opts, false⟩ = true := by
    rw [ReaderSyncZc.shouldStep, hinvalid]
    exact Bool.or_true _
  obtain ⟨hnext, hadvance⟩ := advance_of_reset h (List.cons_ne_nil _ _) hlt
    fun hi : ReaderIter.next = .newest => ReaderIter.noConfusion hi
  rw [ReaderSyncZc.readIfCan_stepped hnext hs]
  simp only [ReaderSyncZc.stepped]
  cases opts.iter with
  | next => rw [hadvance, jumpHead_cons rfl (.refl _) h.page.1 rfl, moved, packetAt_moveTo h List.mem_cons_self]
  | newest =>
    have htail : jumpTail m t = .ok (t.moveTo f₂) := jumpTail_eq rfl (show Holds m n _ ([f₁] ++ [f₂]) from h.page.1)
    rw [advance, htail, moved, packetAt_moveTo h (List.mem_cons_of_mem _ List.mem_cons_self)]

/-- The thread jumps to its first packet, and the synchronous reader goes on to its. -/
theorem exists_first (opts : ReaderOptions) : ∃ (p : Beside) (f₁ f₂ : Frame), f₁.seq ≠ f₂.seq ∧
    (runs .shared opts).Reach p ∧ (opts.iter = .next → (oneWay .shared opts).Reach p) ∧
    p.thread.reads.map Read.result = [.ok (some f₁.entry)] ∧
    p.reads.map Read.result = [.ok (some (match opts.iter with | .next => f₁.entry | .newest => f₂.entry))] := by
  obtain ⟨p, f₁, f₂, hp, hne, h⟩ := exists_await opts
  obtain ⟨_, _, _, hinv⟩ := (isInvariant (show ArenaMode.shared ≠ .readonly by decide)).reach hp
  obtain ⟨hsync, -, -⟩ := hinv.first (by rw [h.pc]; rfl)
  have hreads := hinv.reads.trans h.reads
  rw [h.reader] at hsync
  have hrun : (runs .shared opts).Reach p := TransitionSystem.reach_mono (S := oneWay .shared opts)
    (fun _ hi => hi) (fun _ _ hs => hs.1) hp
  have hhead : p.thread.reader.handleFirst (WaitPc.entering.leave.exec p.thread.mem) =
      (⟨moveTo { arena := ⟨1000, .shared⟩ } f₁, opts, true⟩, true) := by
    have hjump := jumpHead_cons rfl (.refl _) h.ready.page.1 rfl (t := { arena := ⟨1000, .shared⟩ })
    have hleave : WaitPc.entering.leave.exec p.thread.mem = p.thread.mem := rfl
    rw [hleave, h.reader, ReaderZc.handleFirst, ReaderZc.reset]
    simp only [Bool.true_or, if_true, hjump, moved]
  have hnonempty : Predicate.nonempty.holds p.thread.mem p.thread.reader.transport = true := by
    rw [Predicate.holds, nonempty, h.ready.empty_eq]
    rfl
  have hfirst := ThreadReading.Step.first .entering _ true h.pc (fun he => WaitPc.noConfusion he) hnonempty hhead
  rw [if_pos rfl] at hfirst
  have hpc : p.thread.pc ≠ .opened := by
    rw [h.pc]
    exact fun he => ThreadPc.noConfusion he
  refine ⟨p.follow _, f₁, f₂, hne, hrun.step ⟨_, hfirst, rfl⟩, fun hiter => hp.step ⟨⟨_, hfirst, rfl⟩, ?_⟩, ?_, ?_⟩
  · intro _ _ hnewest
    rw [h.reader, hiter] at hnewest
    cases hnewest
  · rw [follow_thread, Reading.deliver, Reading.runTo, h.reads]
    exact congrArg (fun e => [Except.ok e]) (packetAt_moveTo h.ready List.mem_cons_self)
  · rw [follow_delivers hpc rfl, hreads, hsync]
    exact congrArg (List.map Read.result) (readIfCan_two h.ready rfl opts)

/-- Two packets are written before the thread gets the lock. It handles the older one first,
and a synchronous reader reads the newer one. -/
theorem not_readers_agree : ¬ ∀ p, (runs .shared ⟨.awaitNew, .newest⟩).Reach p → p.reads = p.thread.reads := by
  intro hall
  obtain ⟨p, f₁, f₂, hne, hp, -, hthread, hsync⟩ := exists_first ⟨.awaitNew, .newest⟩
  rw [hall p hp, hthread] at hsync
  have hentry : f₁.entry = f₂.entry := by simpa using hsync
  exact hne (congrArg Prod.fst hentry)

/-- With ITER_NEXT both read the older one. -/
theorem readers_agree_next : ∃ p, (oneWay .shared ⟨.awaitNew, .next⟩).Reach p ∧ p.reads.length = 1 ∧
    p.reads = p.thread.reads := by
  obtain ⟨p, f₁, f₂, -, -, hp, -, hsync⟩ := exists_first ⟨.awaitNew, .next⟩
  have hlength := congrArg List.length hsync
  rw [List.length_map] at hlength
  exact ⟨p, hp rfl, hlength, readers_agree (by decide) (hp rfl)⟩

end Beside

end AlephZero
