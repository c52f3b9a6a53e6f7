import AlephZero.Packet.Codec
import AlephZero.Reader.Order
import AlephZero.Writer.Numbering

/-!
# Publish and subscribe

Any number of publishers, which are writers with the standard headers, and one subscriber
with INIT_OLDEST and ITER_NEXT, which is opened at any time.

## The model

A `PubSub` is a `Fleet` of writers, and a reader of either kind (`ReaderKind`) on their
arena. A write from the lock on is one step, at which the reader does not have the mutex;
the commit order is that in which writes have returned. The packets fit: that which a
step is to append fits into the arena. Nothing is evicted as long as `seq_low` has not
advanced.

## What is proved

* `Fleet.Step.progress_eq` — a step loses no packet that is to be written.
* `receives_next` — a read in order gives the next entry.
* `PubSub.Step.inv`, `PubSub.isInvariant` — the invariant, for one step and for a run.
* **`pubsub_lossless`** — the subscriber has received the first of the packets in commit
  order, each with the standard headers in front of its own.
-/

namespace AlephZero

open ByteMem StoreProg Prog Transport

variable {Val ι : Type} {json : Yyjson Val} {mode : ArenaMode} {m : Mem} {n q : ℕ} {C C' : List Frame}

/-! ### Writes get done in order -/

namespace Fleet

variable [DecidableEq ι] {σ τ : Fleet ι} {writer : ι → Build Provided}

/-- What a writer has written, what it is writing, and what it has still to write. -/
def progress (σ : Fleet ι) (i : ι) : List Packet :=
  (σ.returned.filter fun r => r.writer = i).map Returned.pkt ++ ((σ.pending i).map Prod.fst).toList ++ σ.todo i

/-- No step loses a packet or writes it twice. -/
theorem Step.progress_eq (h : Step json mode writer σ τ) (i : ι) : τ.progress i = σ.progress i := by
  cases h with
  | ticks => rfl
  | begins j pkt pkt' rest h hnone htodo =>
    by_cases hij : i = j
    · subst hij
      simp only [progress, begun, Function.update_self, hnone, htodo]
      simp
    · simp only [progress, begun, Function.update_of_ne hij]
  | returns j pkt pkt' out hpending =>
    by_cases hij : i = j
    · subst hij
      simp only [progress, ended, Function.update_self, hpending, List.filter_append]
      simp
    · simp only [progress, ended, Function.update_of_ne hij, List.filter_append]
      simp [Ne.symm hij]

end Fleet

/-! ### Entries with the numbers from one on -/

/-- What a read gave. -/
def Read.entry (r : Read) : Option (ℕ × List UInt8) :=
  match r.result with
  | .ok e => e
  | .error _ => none

/-- The packets that have been read. -/
def received (rs : List Read) : List (ℕ × List UInt8) := rs.filterMap Read.entry

theorem received_append (rs : List Read) (r : Read) : received (rs ++ [r]) = received rs ++ r.entry.toList := by
  rw [received, List.filterMap_append, ← received, List.filterMap_cons, List.filterMap_nil]
  cases r.entry <;> rfl

/-- The least entry behind the first ones is the next one. -/
theorem append_least {entries first : List (ℕ × List UInt8)} {e : ℕ × List UInt8}
    (hnumbers : entries.map Prod.fst = List.range' 1 entries.length) (hfirst : first <+: entries) (he : e ∈ entries)
    (hb : first.length + 1 ≤ e.1) (hleast : ∀ e' ∈ entries, first.length + 1 ≤ e'.1 → e.1 ≤ e'.1) :
    first ++ [e] <+: entries ∧ e.1 = first.length + 1 := by
  have hnumber : ∀ i (hi : i < entries.length), entries[i].1 = 1 + i := by
    intro i hi
    have hget := congrArg (fun l => l[i]?) hnumbers
    simpa [hi] using hget
  obtain ⟨i, hi, rfl⟩ := List.getElem_of_mem he
  have hle := hnumber i hi
  have hlen : first.length < entries.length := by omega
  have hnext := hleast _ (List.getElem_mem hlen) (by rw [hnumber _ hlen]; omega)
  rw [hnumber _ hlen] at hnext
  obtain rfl : i = first.length := by omega
  refine ⟨?_, by omega⟩
  have htake : entries.take (first.length + 1) = first ++ [entries[first.length]] := by
    rw [List.take_succ_eq_append_getElem hlen, ← List.prefix_iff_eq_take.mp hfirst]
  rw [← htake]
  exact List.take_prefix _ _

/-- A read in order, of a log with all entries, gives the next one or none. -/
theorem receives_next {entries : List (ℕ × List UInt8)} {rs : List Read} {r : Read}
    (hnumbers : entries.map Prod.fst = List.range' 1 entries.length) (hfirst : received rs <+: entries)
    (hlog : r.log = entries) (hleast : r.Least ((received rs).length + 1)) :
    received (rs ++ [r]) <+: entries ∧ r.bound ((received rs).length + 1) = (received (rs ++ [r])).length + 1 := by
  obtain ⟨log, result⟩ := r
  subst hlog
  rw [received_append]
  cases result with
  | error e =>
    have hentry : Read.entry ⟨log, .error e⟩ = none := rfl
    rw [hentry, Option.toList_none, List.append_nil]
    exact ⟨hfirst, rfl⟩
  | ok p =>
    cases p with
    | none => exact hleast.elim
    | some e =>
      obtain ⟨hmem, hb, hle⟩ := hleast
      obtain ⟨hfront, hnumber⟩ := append_least hnumbers hfirst hmem hb hle
      have hentry : Read.entry ⟨log, .ok (some e)⟩ = some e := rfl
      rw [hentry, Option.toList_some, List.length_append, List.length_singleton]
      exact ⟨hfront, congrArg (· + 1) hnumber⟩

/-! ### Kinds of readers -/

/-- A kind of readers: how it runs, and where it is. -/
structure ReaderKind (R P : Type) where
  /-- A step of a reader, or of others. -/
  Step : Reading R P → Reading R P → Prop
  /-- A reader that is going to be opened, on an arena of this mode and size. -/
  closed : ArenaMode → ℕ → Reading R P
  /-- It does not have the mutex. -/
  free : P → Bool
  /-- It has been initialised. -/
  opened : P → Bool

namespace ReaderKind

/-- Synchronous readers. -/
def sync (opts : ReaderOptions) : ReaderKind ReaderSyncZc SyncPc where
  Step := SyncReading.Step
  closed mode n := SyncReading.closed mode n opts
  free := SyncPc.free
  opened pc := pc ≠ .closed && pc ≠ .opened

/-- Threaded readers. -/
def thread (opts : ReaderOptions) : ReaderKind ReaderZc ThreadPc where
  Step := ThreadReading.Step
  closed mode n := ThreadReading.closed mode n opts
  free := ThreadPc.free
  opened pc := pc ≠ .closed && pc ≠ .opened

variable {R P : Type} (K : ReaderKind R P)

/-- What a step of a reader does to its reads. -/
inductive Goes (init : ReaderInit) (σ τ : Reading R P) (C : List Frame) (q : ℕ) : Prop where
  | quiet : τ.start = σ.start → τ.reads = σ.reads → K.opened τ.pc = K.opened σ.pc → Goes init σ τ C q
  | opens : K.opened σ.pc = false → K.opened τ.pc = true → τ.start = startingPoint (C.map Frame.entry) q init →
    τ.reads = σ.reads → Goes init σ τ C q
  | reads (r : Read) : K.opened σ.pc = true → K.opened τ.pc = true → τ.start = σ.start → τ.reads = σ.reads ++ [r] →
    r.log = C.map Frame.entry → Goes init σ τ C q

/-- What is known of a kind of readers. -/
structure Laws (init : ReaderInit) (mode : ArenaMode) where
  Inv : Reading R P → ℕ → List Frame → ℕ → Prop
  closed : ∀ n < 2 ^ 62, Inv (K.closed mode n) n [] 0 ∧ (K.closed mode n).reads = [] ∧
    K.opened (K.closed mode n).pc = false
  ready : ∀ {σ n C q}, Inv σ n C q → Ready σ.mem n C [] q
  order : ∀ {σ n C q}, Inv σ n C q → InOrder σ.start σ.reads
  later : ∀ {σ n C q m C' q'}, Inv σ n C q → Ready m n C' [] q' → Later C q C' q' →
    Inv { σ with mem := m } n C' q'
  own : ∀ {σ τ n C q}, K.Step σ τ → τ.pc ≠ σ.pc → Inv σ n C q → Inv τ n C q ∧ K.Goes init σ τ C q

end ReaderKind

/-- What a step of a synchronous reader does to its reads. -/
theorem SyncReading.Step.goes {opts : ReaderOptions} {σ τ : SyncReading} (hs : Step σ τ) (hmoves : τ.pc ≠ σ.pc)
    (h : σ.Inv mode opts n C q) : (ReaderKind.sync opts).Goes opts.init σ τ C q := by
  have hlog : σ.log = C.map Frame.entry := h.ready.log_eq
  have hleave : ∀ w : WaitPc, logOf (w.leave.exec σ.mem) (workingState (w.leave.exec σ.mem)) = C.map Frame.entry :=
    fun w => (leave_committed h.ready w).log_eq
  cases hs with
  | others => exact absurd rfl hmoves
  | opens hpc =>
    refine .quiet rfl rfl ?_
    rw [hpc]
    rfl
  | inits hpc =>
    refine .opens ?_ rfl ?_ rfl
    · rw [hpc]
      rfl
    · rw [← h.opts]
      exact Reading.starting_eq (lock_committed _ h.ready)
  | read hpc | readBlocking hpc | unlock hpc | sleep _ _ hpc | wake _ hpc | fail _ _ hpc =>
    refine .quiet rfl rfl ?_
    rw [hpc]
    rfl
  | error e hpc =>
    refine .reads _ ?_ rfl rfl rfl hlog
    rw [hpc]
    rfl
  | aligned r hpc =>
    refine .reads _ ?_ rfl rfl rfl hlog
    rw [hpc]
    rfl
  | nonempty w hpc =>
    split_ifs
    · refine .quiet rfl rfl ?_
      rw [hpc]
      rfl
    · refine .reads _ ?_ rfl rfl rfl (hleave w)
      rw [hpc]
      rfl
  | hasNext w hpc =>
    refine .reads _ ?_ rfl rfl rfl (hleave w)
    rw [hpc]
    rfl

/-- What a step of a threaded reader does to its reads. -/
theorem ThreadReading.Step.goes_of_ready {opts : ReaderOptions} {σ τ : ThreadReading} (hs : Step σ τ)
    (hmoves : τ.pc ≠ σ.pc) (hready : Ready σ.mem n C [] q) (hopts : σ.reader.opts = opts) :
    (ReaderKind.thread opts).Goes opts.init σ τ C q := by
  have hleave : ∀ w : WaitPc, logOf (w.leave.exec σ.mem) (workingState (w.leave.exec σ.mem)) = C.map Frame.entry :=
    fun w => (leave_committed hready w).log_eq
  cases hs with
  | others => exact absurd rfl hmoves
  | opens hpc =>
    refine .quiet rfl rfl ?_
    rw [hpc]
    rfl
  | inits hpc =>
    refine .opens ?_ rfl ?_ rfl
    · rw [hpc]
      rfl
    · rw [← hopts]
      exact Reading.starting_eq (lock_committed _ hready)
  | main hpc | sleep _ _ hpc | wake _ hpc | fail _ _ hpc | release hpc | relock hpc | handled hpc =>
    refine .quiet rfl rfl ?_
    rw [hpc]
    rfl
  | first w r handles hpc =>
    split_ifs
    · refine .reads _ ?_ rfl rfl rfl (hleave w)
      rw [hpc]
      rfl
    · refine .quiet rfl rfl ?_
      rw [hpc]
      rfl
  | next w hpc =>
    refine .reads _ ?_ rfl rfl rfl (hleave w)
    rw [hpc]
    rfl

theorem ThreadReading.Step.goes {opts : ReaderOptions} {σ τ : ThreadReading} (hs : Step σ τ) (hmoves : τ.pc ≠ σ.pc)
    (h : σ.Inv mode opts n C q) : (ReaderKind.thread opts).Goes opts.init σ τ C q :=
  hs.goes_of_ready hmoves h.ready h.opts

namespace ReaderKind

/-- Synchronous readers with ITER_NEXT. -/
def syncLaws (opts : ReaderOptions) (hiter : opts.iter = .next) (mode : ArenaMode) :
    (sync opts).Laws opts.init mode where
  Inv := SyncReading.Inv mode opts
  closed n hn := by
    have hr : Ready (SyncReading.closed mode n opts).mem n [] [] 0 := by
      rw [SyncReading.closed_mem]
      exact reached_init mode hn
    exact ⟨⟨hr, rfl, rfl, trivial, fun _ => ⟨rfl, rfl⟩, fun hc => absurd rfl hc, nofun⟩, rfl, rfl⟩
  ready h := h.ready
  order h := h.order
  later h := h.later
  own hs hmoves h := ⟨hs.own hiter hmoves h, hs.goes hmoves h⟩

/-- Threaded readers with ITER_NEXT. -/
def threadLaws (opts : ReaderOptions) (hiter : opts.iter = .next) (mode : ArenaMode) :
    (thread opts).Laws opts.init mode where
  Inv := ThreadReading.Inv mode opts
  closed n hn := by
    have hr : Ready (ThreadReading.closed mode n opts).mem n [] [] 0 := by
      rw [ThreadReading.closed_mem]
      exact reached_init mode hn
    exact ⟨⟨hr, rfl, rfl, trivial, fun _ => ⟨rfl, rfl⟩, nofun, nofun⟩, rfl, rfl⟩
  ready h := h.ready
  order h := h.order
  later h := h.later
  own hs hmoves h := ⟨hs.own hiter hmoves h, hs.goes hmoves h⟩

end ReaderKind

/-! ### Publishers and a subscriber -/

/-- INIT_OLDEST and ITER_NEXT. -/
def subscriberOpts : ReaderOptions := ⟨.oldest, .next⟩

/-- Several writers, and a reader on their arena. -/
structure PubSub (ι R P : Type) where
  fleet : Fleet ι
  pc : P
  reader : R
  start : ℕ
  reads : List Read

namespace PubSub

variable {R P : Type}

/-- The reader, with the arena. -/
def reading (σ : PubSub ι R P) : Reading R P := ⟨σ.fleet.host.mem, σ.pc, σ.reader, σ.start, σ.reads⟩

/-- The reader has made a step. -/
def read (σ : PubSub ι R P) (τ : Reading R P) : PubSub ι R P where
  fleet := { σ.fleet with host := { σ.fleet.host with mem := τ.mem } }
  pc := τ.pc
  reader := τ.reader
  start := τ.start
  reads := τ.reads

/-- The entries that have been appended, in commit order. -/
def committed (σ : PubSub ι R P) : List (ℕ × List UInt8) := σ.fleet.committed

variable [DecidableEq ι] (K : ReaderKind R P)

/-- A step of the publishers, or of the subscriber. -/
inductive Step (json : Yyjson Val) (mode : ArenaMode) (id : ι → CString) (data : ι → ℕ) (σ : PubSub ι R P) :
    PubSub ι R P → Prop where
  /-- A write that returns has had the mutex. -/
  | publishes (τ : Fleet ι) : Fleet.Step json mode (fun i => standardWriter (id i) (data i)) σ.fleet τ →
    σ.fleet.Fitting json mode (fun i => standardWriter (id i) (data i)) τ →
    (τ.returned ≠ σ.fleet.returned → K.free σ.pc = true) → Step json mode id data σ { σ with fleet := τ }
  /-- The steps of a reader move it on, and those of others do not. -/
  | subscribes (τ : Reading R P) : K.Step σ.reading τ → τ.pc ≠ σ.pc → Step json mode id data σ (σ.read τ)

/-- Any interleaving, on an arena that was all zero. -/
def runs (json : Yyjson Val) (mode : ArenaMode) (id : ι → CString) (data : ι → ℕ) (program : ι → List Packet) :
    TransitionSystem (PubSub ι R P) where
  init σ := (∃ n < 2 ^ 62, σ.reading = K.closed mode n) ∧ σ.fleet.todo = program ∧
    (∀ i, σ.fleet.pending i = none) ∧ σ.fleet.returned = []
  step := Step K json mode id data

/-! ### The invariant -/

/-- Each write that has returned has appended one entry, which is its packet with the standard
headers. -/
structure Published (id : ι → CString) (σ : PubSub ι R P) (q : ℕ) : Prop where
  returned : σ.fleet.returned.length = q
  numbers : σ.committed.map Prod.fst = List.range' 1 q
  entries : ∀ k r, σ.fleet.returned[k]? = some r → ∃ s : Stamp, s.id = id r.writer ∧
    (r.pkt.stamped s).wire.length < 2 ^ 63 ∧ σ.committed[k]? = some (k + 1, (r.pkt.stamped s).wire)

omit [DecidableEq ι] in
theorem Published.length_committed {id : ι → CString} {σ : PubSub ι R P} (h : Published id σ q) :
    σ.committed.length = q := by
  rw [← List.length_map Prod.fst, h.numbers, List.length_range']

/-- The subscriber has received the first entries, and is to receive the next one. -/
structure Receiving (σ : PubSub ι R P) : Prop where
  start : K.opened σ.pc = true → σ.start = 1
  received : received σ.reads <+: σ.committed
  bound : K.opened σ.pc = true → bound 1 σ.reads = (AlephZero.received σ.reads).length + 1

variable {K} (L : K.Laws .oldest mode) {id : ι → CString} {data : ι → ℕ} {program : ι → List Packet}
  {σ τ : PubSub ι R P}

/-- The log is the newest of the entries; and if it is all of them, the subscriber has received
the first ones. -/
structure Inv (id : ι → CString) (program : ι → List Packet) (σ : PubSub ι R P) (n : ℕ) (C : List Frame) (q : ℕ) :
    Prop where
  reader : L.Inv σ.reading n C q
  newest : C.map Frame.entry <:+ σ.committed
  published : Published id σ q
  pending : ∀ i pkt pkt', σ.fleet.pending i = some (pkt, pkt') →
    ∃ writerSeq wall, pkt' = pkt.stampedEarly writerSeq (id i) wall
  progress : ∀ i, σ.fleet.progress i = program i
  closed : K.opened σ.pc = false → σ.reads = []
  receiving : C.map Frame.entry = σ.committed → Receiving K σ

/-! ### A write -/

variable {L}

/-- A step of the publishers up to the lock. -/
theorem Inv.waits {τ : Fleet ι} (h : σ.Inv L id program n C q) (hmem : τ.host.mem = σ.fleet.host.mem)
    (hreturned : τ.returned = σ.fleet.returned)
    (hpending : ∀ i pkt pkt', τ.pending i = some (pkt, pkt') →
      ∃ writerSeq wall, pkt' = pkt.stampedEarly writerSeq (id i) wall)
    (hprogress : ∀ i, τ.progress i = σ.fleet.progress i) :
    Inv L id program { σ with fleet := τ } n C q := by
  have hreading : reading { σ with fleet := τ } = σ.reading := by rw [reading, hmem, reading]
  have hcommitted : committed { σ with fleet := τ } = σ.committed := congrArg (List.flatMap Returned.added) hreturned
  refine ⟨hreading ▸ h.reader, hcommitted ▸ h.newest, ⟨?_, hcommitted ▸ h.published.numbers, ?_⟩, hpending, ?_,
    h.closed, ?_⟩
  · rw [hreturned]
    exact h.published.returned
  · rw [hreturned, hcommitted]
    exact h.published.entries
  · intro i
    rw [hprogress]
    exact h.progress i
  · intro hall
    rw [hcommitted] at hall
    obtain ⟨hstart, hreceived, hbound⟩ := h.receiving hall
    exact ⟨hstart, hcommitted ▸ hreceived, hbound⟩

/-- A write has appended its packet. -/
theorem Inv.appends {τ : Fleet ι} {r : Returned ι} {s : Stamp} {f : Frame} {k : ℕ} (h : σ.Inv L id program n C q)
    (hreturned : τ.returned = σ.fleet.returned ++ [r]) (hadded : r.added = [f.entry]) (hseq : f.seq = q + 1)
    (hdata : f.data = (r.pkt.stamped s).wire) (hsize : (r.pkt.stamped s).wire.length < 2 ^ 63)
    (hid : s.id = id r.writer) (hready : Ready τ.host.mem n (C.drop k ++ [f]) [] (q + 1))
    (hpending : ∀ i pkt pkt', τ.pending i = some (pkt, pkt') →
      ∃ writerSeq wall, pkt' = pkt.stampedEarly writerSeq (id i) wall)
    (hprogress : ∀ i, τ.progress i = σ.fleet.progress i) :
    Inv L id program { σ with fleet := τ } n (C.drop k ++ [f]) (q + 1) := by
  have hcommitted : committed { σ with fleet := τ } = σ.committed ++ [f.entry] := by
    have happended := Fleet.committed_returned hreturned
    rwa [hadded] at happended
  have hentry : f.entry = (q + 1, (r.pkt.stamped s).wire) := by rw [Frame.entry, hseq, hdata]
  have hlength : σ.committed.length = q := h.published.length_committed
  have hlater : Later C q (C.drop k ++ [f]) (q + 1) := by
    refine ⟨Nat.le_succ q, ?_⟩
    intro g hg hle
    rcases List.mem_append.mp hg with hg | hg
    · exact List.drop_subset k C hg
    · rw [List.mem_singleton.mp hg, hseq] at hle
      omega
  have hsuffix : (C.drop k).map Frame.entry <:+ σ.committed := by
    rw [List.map_drop]
    exact (List.drop_suffix k _).trans h.newest
  refine ⟨L.later h.reader hready hlater, ?_, ⟨?_, ?_, ?_⟩, hpending, ?_, h.closed, ?_⟩
  · rw [hcommitted, List.map_append, List.map_singleton]
    obtain ⟨front, hfront⟩ := hsuffix
    exact ⟨front, by rw [← List.append_assoc, hfront]⟩
  · rw [hreturned, List.length_append, h.published.returned, List.length_singleton]
  · rw [hcommitted, List.map_append, h.published.numbers, List.map_singleton, hentry, List.range'_concat, Nat.one_mul,
      Nat.add_comm 1 q]
  · intro i r' hi
    rw [hreturned, List.getElem?_append] at hi
    rw [hcommitted, List.getElem?_append, hlength]
    split_ifs at hi with hlt
    · rw [h.published.returned] at hlt
      rw [if_pos hlt]
      exact h.published.entries i r' hi
    · rw [h.published.returned] at hlt hi
      have hzero : i - q = 0 := by
        by_contra hne
        rw [List.getElem?_singleton, if_neg hne] at hi
        cases hi
      rw [hzero] at hi
      cases hi
      rw [if_neg hlt, hzero, show i = q by omega]
      exact ⟨s, hid, hsize, congrArg some hentry⟩
  · intro i
    rw [hprogress]
    exact h.progress i
  · intro hall
    rw [hcommitted, List.map_append, List.map_singleton] at hall
    have hkept : (C.drop k).map Frame.entry = σ.committed := (List.append_left_inj _).mp hall
    -- none of the frames has been evicted
    have hlen : σ.committed.length ≤ (C.map Frame.entry).length := by
      rw [← hkept, List.length_map, List.length_map, List.length_drop]
      omega
    obtain ⟨hstart, hreceived, hbound⟩ := h.receiving (h.newest.eq_of_length_le hlen)
    exact ⟨hstart, by rw [hcommitted]; exact hreceived.trans (List.prefix_append _ _), hbound⟩

/-- A step of the publishers. -/
theorem Inv.publishes {τ : Fleet ι} (hmode : mode ≠ .readonly) (h : σ.Inv L id program n C q)
    (hstep : Fleet.Step json mode (fun i => standardWriter (id i) (data i)) σ.fleet τ)
    (hfit : σ.fleet.Fitting json mode (fun i => standardWriter (id i) (data i)) τ) :
    ∃ C' q', Inv L id program { σ with fleet := τ } n C' q' := by
  have hprogress := hstep.progress_eq
  cases hstep with
  | ticks mono wall => exact ⟨C, q, h.waits rfl rfl h.pending hprogress⟩
  | begins i pkt pkt' rest host hnone htodo hprocess =>
    refine ⟨C, q, h.waits (processPhase_mem hprocess) rfl ?_ hprogress⟩
    intro j pkt₁ pkt₂ hj
    by_cases hij : j = i
    · subst hij
      simp only [Fleet.begun, Function.update_self] at hj
      cases hj
      obtain ⟨writerSeq, hpkt⟩ := exists_stampedEarly hprocess
      exact ⟨writerSeq, σ.fleet.host.wall, hpkt⟩
    · simp only [Fleet.begun, Function.update_of_ne hij] at hj
      exact h.pending j pkt₁ pkt₂ hj
  | returns i pkt pkt' out hpending hret hsize hlow hout =>
    have hready : Ready σ.fleet.host.mem n C [] q := L.ready h.reader
    have hhigh : (workingState ((lock mode).exec σ.fleet.host.mem)).seqHigh = q :=
      (lock_committed mode hready).seqHigh_eq
    obtain ⟨writerSeq, wall, rfl⟩ := h.pending i pkt pkt' hpending
    obtain ⟨text, htext, hphase⟩ := exists_stampedLate (Fleet.lockedPhase_ne_stuck hret)
    rw [hhigh] at htext
    have hroom : q + 2 < 2 ^ 64 := by
      have hlt := (seqText_eq_some htext).1
      norm_num at hlt ⊢
      omega
    let s : Stamp := ⟨text, σ.fleet.host.mono, writerSeq, id i, wall⟩
    have hended : Function.update σ.fleet.pending i none i = none := Function.update_self ..
    have hfits := hfit i pkt _ _ hpending hended hphase
    rw [hready.arenaSize_eq] at hfits
    obtain ⟨r, hreturned, hwriter, hpkt, -, -, hadded⟩ := Fleet.ended_released i pkt hret
    rcases Fleet.ended_ready i pkt hmode hready hret hphase.symm (fun _ _ => hroom)
      (fun pkt'' hpkt'' => hsize pkt'' (hphase.trans hpkt'')) hlow hout with
      ⟨pkt'', f, happend, -, hseq, hdata, hr, hone⟩ | ⟨hno, -⟩
    · cases happend
      have hwire : f.data = (r.pkt.stamped s).wire := by
        rw [hpkt, hdata]
        rfl
      refine ⟨_, _, h.appends (s := s) hreturned (hadded.trans hone) hseq hwire ?_ (by rw [hwriter]) hr ?_ hprogress⟩
      · rw [hpkt, Packet.length_wire]
        exact hsize _ hphase
      · intro j pkt₁ pkt₂ hj
        by_cases hij : j = i
        · subst hij
          simp only [Fleet.ended, Function.update_self] at hj
          cases hj
        · simp only [Fleet.ended, Function.update_of_ne hij] at hj
          exact h.pending j pkt₁ pkt₂ hj
    · exact absurd hfits (not_le.mpr (hno _ rfl))

/-- The first entry of the log is where a subscriber starts. -/
theorem startingPoint_numbered {entries : List (ℕ × List UInt8)} {q : ℕ}
    (hnumbers : entries.map Prod.fst = List.range' 1 q) : startingPoint entries q .oldest = 1 := by
  cases entries with
  | nil =>
    have hq : q = 0 := by simpa using (congrArg List.length hnumbers).symm
    rw [hq]
    rfl
  | cons e rest =>
    cases q with
    | zero => cases hnumbers
    | succ q =>
      rw [List.map_cons, List.range'_succ] at hnumbers
      exact (List.cons.inj hnumbers).1

/-- A step of the subscriber. -/
theorem Inv.subscribes {τ : Reading R P} (h : σ.Inv L id program n C q) (hstep : K.Step σ.reading τ)
    (hmoves : τ.pc ≠ σ.pc) : Inv L id program (σ.read τ) n C q := by
  obtain ⟨hreader, hgoes⟩ := L.own hstep hmoves h.reader
  have horder : InOrder τ.start τ.reads := L.order hreader
  have hpublished : Published id (σ.read τ) q := ⟨h.published.returned, h.published.numbers, h.published.entries⟩
  refine ⟨hreader, h.newest, hpublished, h.pending, h.progress, ?_, ?_⟩
  · intro hclosed
    cases hgoes with
    | quiet _ hreads hopened =>
      have hbefore : K.opened σ.pc = false := hopened.symm.trans hclosed
      exact hreads.trans (h.closed hbefore)
    | opens _ hopened => rw [show K.opened τ.pc = false from hclosed] at hopened; cases hopened
    | reads _ _ hopened => rw [show K.opened τ.pc = false from hclosed] at hopened; cases hopened
  · intro hall
    obtain ⟨hstart, hreceived, hbound⟩ := h.receiving hall
    cases hgoes with
    | quiet hs hreads hopened =>
      have hstart' : K.opened τ.pc = true → τ.start = 1 := fun ho => hs.trans (hstart (hopened.symm.trans ho))
      refine ⟨hstart', ?_, fun ho => ?_⟩
      · simp only [read, hreads]
        exact hreceived
      · simp only [read, hreads]
        exact hbound (hopened.symm.trans ho)
    | opens hclosed hopened hs hreads =>
      have hnone : σ.reads = [] := h.closed hclosed
      have hempty : τ.reads = [] := hreads.trans hnone
      refine ⟨fun _ => ?_, ?_, fun _ => ?_⟩
      · rw [show σ.read τ = _ from rfl, read, hs, hall]
        exact startingPoint_numbered h.published.numbers
      · simp only [read, hempty]
        exact List.nil_prefix
      · simp only [read, hempty]
        rfl
    | reads r ho hopened hs hreads hlog =>
      have hone : σ.start = 1 := hstart ho
      have hb := hbound ho
      have hlength : σ.committed.length = q := h.published.length_committed
      have hleast : r.Least ((received σ.reads).length + 1) := by
        rw [hreads, hs, inOrder_append] at horder
        rw [← hb, ← hone]
        exact horder.2
      obtain ⟨hfront, hnext⟩ := receives_next (hlength ▸ h.published.numbers) hreceived (hlog.trans hall) hleast
      refine ⟨fun _ => hs.trans hone, ?_, fun _ => ?_⟩
      · simp only [read, hreads]
        exact hfront
      · simp only [read, hreads]
        rw [show (reading σ).reads = σ.reads from rfl, bound_append, hb]
        exact hnext

/-- A step keeps the invariant. -/
theorem Step.inv (hmode : mode ≠ .readonly) (hstep : Step K json mode id data σ τ) (h : σ.Inv L id program n C q) :
    ∃ C' q', τ.Inv L id program n C' q' := by
  cases hstep with
  | publishes τ hτ hfit _ => exact h.publishes hmode hτ hfit
  | subscribes τ hτ hmoves => exact ⟨C, q, h.subscribes hτ hmoves⟩

variable (L) in
theorem isInvariant (hmode : mode ≠ .readonly) :
    (runs K json mode id data program).IsInvariant fun σ => ∃ n C q, σ.Inv L id program n C q where
  init := by
    rintro σ ⟨⟨n, hn, hreading⟩, htodo, hpending, hreturned⟩
    obtain ⟨hinv, hreads, hopened⟩ := L.closed n hn
    rw [← hreading] at hinv hreads hopened
    have hreads' : σ.reads = [] := hreads
    have hopened' : K.opened σ.pc = false := hopened
    have hcommitted : σ.committed = [] := by rw [committed, Fleet.committed, hreturned, List.flatMap_nil]
    refine ⟨n, [], 0, hinv, List.nil_suffix, ⟨?_, ?_, ?_⟩, ?_, ?_, fun _ => hreads', fun _ => ⟨?_, ?_, ?_⟩⟩
    · rw [hreturned, List.length_nil]
    · rw [hcommitted, List.map_nil, List.range'_zero]
    · intro k r hk
      rw [hreturned] at hk
      cases hk
    · intro i pkt pkt' hi
      rw [hpending i] at hi
      cases hi
    · intro i
      simp only [Fleet.progress, hreturned, hpending i, htodo]
      rfl
    · intro ho
      rw [hopened'] at ho
      cases ho
    · rw [hreads']
      exact List.nil_prefix
    · intro ho
      rw [hopened'] at ho
      cases ho
  step := by
    rintro σ τ ⟨n, C, q, h⟩ hstep
    obtain ⟨C', q', h'⟩ := hstep.inv hmode h
    exact ⟨n, C', q', h'⟩

/-! ### Nothing is evicted -/

/-- All entries are in the log as long as `seq_low` has not advanced. -/
theorem Inv.all_entries_iff (h : σ.Inv L id program n C q) :
    C.map Frame.entry = σ.committed ↔ (workingState σ.fleet.host.mem).seqLow ≤ 1 := by
  have hr : Ready σ.fleet.host.mem n C [] q := L.ready h.reader
  have hlength : σ.committed.length = q := h.published.length_committed
  have hpage : PageOf (workingState σ.fleet.host.mem) C := hr.page.1.page
  have hhigh : (workingState σ.fleet.host.mem).seqHigh = q := hr.seqHigh_eq
  constructor
  · intro hall
    have hC : C.length = q := by rw [← List.length_map Frame.entry, hall, hlength]
    rcases hpage.high with hsum | ⟨-, hzero, -⟩
    · omega
    · omega
  · intro hlow
    refine h.newest.eq_of_length_le ?_
    rw [hlength, List.length_map, ← hhigh]
    rcases hpage.high with hsum | ⟨-, -, hzero⟩
    · omega
    · omega

/-! ### What is delivered -/

/-- The bytes are those of the packet with the standard headers of a writer; and they are
deserialized, with any allocator, to the packet's id, the standard headers with its own behind
them, and its payload. -/
def Delivers (id : CString) (pkt : Packet) (bytes : List UInt8) : Prop :=
  ∃ s : Stamp, s.id = id ∧ bytes = (pkt.stamped s).wire ∧
    ∀ (m : Mem) (fpkt buf out : Buf) (alloc : Alloc) (n : ℕ), m.At fpkt.data bytes → fpkt.size = bytes.length →
      n = (flatStats m fpkt).numHdrs * 16 + (flatStats m fpkt).contentSize → Gives alloc m n buf →
      ((alloc n).exec m).At fpkt.data bytes → fpkt.Apart buf.data buf.size →
      ∃ ref, (deserialize fpkt alloc out).eval m = some (ref, buf) ∧
        ref.contents ((deserialize fpkt alloc out).exec m) =
          some ⟨pkt.id.bytes, (s.headers ++ pkt.headers).map PacketHeader.contents, pkt.payload⟩

theorem delivers_stamped {pkt : Packet} {s : Stamp} (hsize : (pkt.stamped s).wire.length < 2 ^ 63) :
    Delivers s.id pkt (pkt.stamped s).wire := by
  refine ⟨s, rfl, rfl, ?_⟩
  rintro m fpkt buf out alloc _ hat hfpkt rfl hgives hkeep hap
  have hspace : (pkt.stamped s).wire.length < addressSpace := by
    rw [addressSpace]
    omega
  rw [Packet.flatStats_eq hat hfpkt hspace] at hgives hkeep
  obtain ⟨href, hcontents, -⟩ := Packet.deserialize_spec out hat hfpkt hspace hgives hkeep hap
  exact ⟨_, href, hcontents⟩

/-- What a subscriber has received, and what has been published. -/
structure Lossless (id : ι → CString) (program : ι → List Packet) (σ : PubSub ι R P) : Prop where
  /-- The writes that have returned are an interleaving of what each publisher publishes, less
  what it has still to. -/
  programs : ∀ i, (σ.fleet.returned.filter fun r => r.writer = i).map Returned.pkt ++
    ((σ.fleet.pending i).map Prod.fst).toList ++ σ.fleet.todo i = program i
  /-- Each of them has committed its packet, once. -/
  commits : List.Forall₂ (fun r e => Delivers (id r.writer) r.pkt e.2) σ.fleet.returned σ.committed
  numbers : σ.committed.map Prod.fst = List.range' 1 σ.fleet.returned.length
  log : logOf σ.fleet.host.mem (workingState σ.fleet.host.mem) = σ.committed
  /-- The subscriber has received the first ones, in this order. -/
  received : received σ.reads <+: σ.committed

omit [DecidableEq ι] in
theorem Published.commits (h : Published id σ q) :
    List.Forall₂ (fun r e => Delivers (id r.writer) r.pkt e.2) σ.fleet.returned σ.committed := by
  have hlength : σ.fleet.returned.length = σ.committed.length := h.returned.trans h.length_committed.symm
  refine List.forall₂_iff_get.mpr ⟨hlength, fun k hk hk' => ?_⟩
  obtain ⟨s, hid, hsize, hentry⟩ := h.entries k _ (List.getElem?_eq_getElem hk)
  rw [List.getElem?_eq_getElem hk', Option.some.injEq] at hentry
  rw [List.get_eq_getElem, List.get_eq_getElem, hentry, ← hid]
  exact delivers_stamped hsize

theorem Inv.lossless (h : σ.Inv L id program n C q) (hlow : (workingState σ.fleet.host.mem).seqLow ≤ 1) :
    Lossless id program σ := by
  have hall := h.all_entries_iff.mpr hlow
  have hr : Ready σ.fleet.host.mem n C [] q := L.ready h.reader
  exact ⟨h.progress, h.published.commits, h.published.returned ▸ h.published.numbers, hr.log_eq.trans hall,
    (h.receiving hall).received⟩

/-- **Publish and subscribe is lossless**, in every state that any run reaches in which nothing
has been evicted, with a synchronous subscriber and with a threaded one: the packets that have
been committed are an interleaving of those which the publishers publish, each in its order,
with none lost and none twice; and the subscriber has received the first ones of them, each with
its id and payload, and with its headers behind the five standard ones. -/
theorem pubsub_lossless {mode : ArenaMode} (json : Yyjson Val) (id : ι → CString) (data : ι → ℕ)
    (program : ι → List Packet) (hmode : mode ≠ .readonly) :
    (∀ σ, (runs (ReaderKind.sync subscriberOpts) json mode id data program).Reach σ →
      (workingState σ.fleet.host.mem).seqLow ≤ 1 → Lossless id program σ) ∧
    ∀ σ, (runs (ReaderKind.thread subscriberOpts) json mode id data program).Reach σ →
      (workingState σ.fleet.host.mem).seqLow ≤ 1 → Lossless id program σ := by
  constructor
  · intro σ hσ hlow
    obtain ⟨n, C, q, h⟩ := (isInvariant (ReaderKind.syncLaws subscriberOpts rfl mode) hmode).reach hσ
    exact h.lossless hlow
  · intro σ hσ hlow
    obtain ⟨n, C, q, h⟩ := (isInvariant (ReaderKind.threadLaws subscriberOpts rfl mode) hmode).reach hσ
    exact h.lossless hlow

/-! ### One packet -/

/-- A read call gives the subscriber what it has not received yet. -/
theorem Inv.aligns {σ : PubSub ι ReaderSyncZc SyncPc}
    (h : σ.Inv (ReaderKind.syncLaws subscriberOpts rfl mode) id program n C q) (hpc : σ.pc = .aligning)
    (hall : C.map Frame.entry = σ.committed) (hlt : (AlephZero.received σ.reads).length < σ.committed.length) :
    ∃ r, σ.reader.readAlign σ.fleet.host.mem = .ok r := by
  have hinv : SyncReading.Inv mode subscriberOpts σ.reading n C q := h.reader
  have hne : σ.reading.pc ≠ .closed ∧ σ.reading.pc ≠ .opened := by simp [reading, hpc]
  have hiter : σ.reading.reader.opts.iter = .next := by rw [hinv.opts]; rfl
  rcases ReaderSyncZc.readAlign_eq hinv.ready (hinv.aims hne.1 hne.2) hiter with ⟨-, hnone⟩ | ⟨f, hok, -⟩
  · exfalso
    have hopened : (ReaderKind.sync subscriberOpts).opened σ.pc = true := by rw [hpc]; rfl
    obtain ⟨hstart, -, hbound⟩ := h.receiving hall
    have hb : bound σ.reading.start σ.reading.reads = (AlephZero.received σ.reads).length + 1 := by
      rw [show σ.reading.start = 1 from hstart hopened]
      exact hbound hopened
    rw [hb] at hnone
    -- the last entry has not been received
    have hlength : σ.committed.length = q := h.published.length_committed
    have hq : q ∈ (C.map Frame.entry).map Prod.fst := by
      rw [hall, h.published.numbers, List.mem_range'_1]
      omega
    obtain ⟨e, he, hqe⟩ := List.mem_map.mp hq
    obtain ⟨f, hf, rfl⟩ := List.mem_map.mp he
    have hlow := since_eq_none.mp hnone f hf
    rw [show f.seq = q from hqe] at hlow
    omega
  · exact ⟨_, hok⟩

/-- A topic of 1000 bytes with one publisher and one subscriber. -/
def quiet : PubSub Unit ReaderSyncZc SyncPc :=
  ⟨Topic.opened.fleet, .closed, ⟨{ arena := ⟨1000, .shared⟩ }, subscriberOpts, false⟩, 0, []⟩

/-- The packet has been written. -/
def published : PubSub Unit ReaderSyncZc SyncPc := { quiet with fleet := Topic.written.fleet }

/-- The publisher and the subscriber. -/
abbrev oneOfEach : TransitionSystem (PubSub Unit ReaderSyncZc SyncPc) :=
  runs (ReaderKind.sync subscriberOpts) noJson .shared (fun _ => .ofString "w") (fun _ => 0) fun _ => [bare [7]]

theorem published_reach : oneOfEach.Reach published := by
  have hclosed : quiet.reading = SyncReading.closed .shared 1000 subscriberOpts :=
    congrArg (fun m : Mem => (⟨m, .closed, ⟨{ arena := ⟨1000, .shared⟩ }, subscriberOpts, false⟩, 0, []⟩ : SyncReading))
      fresh_mem
  have hfirst : oneOfEach.Reach quiet := .init ⟨⟨1000, by norm_num, hclosed⟩, rfl, fun _ => rfl, rfl⟩
  have hsecond : oneOfEach.Reach { quiet with fleet := Topic.waiting.fleet } := by
    refine .step hfirst (.publishes _ Topic.waiting_step ?_ fun _ => rfl)
    rintro i pkt pkt' pkt'' ⟨⟩
  refine .step hsecond (.publishes _ Topic.written_step ?_ fun _ => rfl)
  intro i pkt pkt' pkt'' hpending _ hphase
  obtain ⟨rfl, rfl⟩ : bare [7] = pkt ∧ Topic.prepared = pkt' := Prod.mk.inj (Option.some.inj hpending)
  rw [Topic.waiting_locked] at hphase
  cases hphase
  rw [Topic.prepared_size, Topic.waiting_size]
  norm_num

theorem published_low : (workingState published.fleet.host.mem).seqLow ≤ 1 := by
  obtain ⟨f, hr, -⟩ := Topic.written_ready
  have hhigh : (workingState published.fleet.host.mem).seqHigh = 1 := hr.seqHigh_eq
  rcases hr.page.1.page.high with hsum | ⟨hnil, -⟩
  · rw [show workingState published.fleet.host.mem = workingState Topic.written.fleet.host.mem from rfl] at hhigh ⊢
    rw [List.length_singleton] at hsum
    omega
  · cases hnil

/-- The subscriber has received it. -/
theorem received_reach : ∃ σ, oneOfEach.Reach σ ∧ (workingState σ.fleet.host.mem).seqLow ≤ 1 ∧
    σ.fleet.returned.length = 1 ∧ (received σ.reads).length = 1 := by
  have hinvariant : oneOfEach.IsInvariant _ :=
    isInvariant (ReaderKind.syncLaws subscriberOpts rfl .shared) (by decide)
  -- the rest of the state, its memory above all, need not be computed
  obtain ⟨ρ, hρ, hclosed, hone₀, hnone, hlow⟩ : ∃ ρ, oneOfEach.Reach ρ ∧ ρ.pc = .closed ∧
      ρ.fleet.returned.length = 1 ∧ ρ.reads = [] ∧ (workingState ρ.fleet.host.mem).seqLow ≤ 1 :=
    ⟨published, published_reach, rfl, rfl, rfl, published_low⟩
  obtain ⟨σ, hσ, hpc, hone, hreads, n, C, q, h, hall⟩ : ∃ σ, oneOfEach.Reach σ ∧ σ.pc = .aligning ∧
      σ.fleet.returned.length = 1 ∧ σ.reads = [] ∧
      ∃ n C q, σ.Inv (ReaderKind.syncLaws subscriberOpts rfl .shared) (fun _ => .ofString "w")
        (fun _ => [bare [7]]) n C q ∧ C.map Frame.entry = σ.committed := by
    obtain ⟨n, C, q, h⟩ := hinvariant.reach hρ
    have hall := h.all_entries_iff.mpr hlow
    have hopens : SyncPc.opened ≠ ρ.pc := by rw [hclosed]; decide
    have hinits : SyncPc.out ≠ SyncPc.opened := by decide
    have hreads : SyncPc.aligning ≠ SyncPc.out := by decide
    have h₁ := h.subscribes (.opens hclosed) hopens
    have h₂ := h₁.subscribes (.inits rfl) hinits
    have h₃ := h₂.subscribes (.read rfl) hreads
    have hσ := ((hρ.step (.subscribes _ (.opens hclosed) hopens)).step (.subscribes _ (.inits rfl) hinits)).step
      (.subscribes _ (.read rfl) hreads)
    exact ⟨_, hσ, rfl, hone₀, hnone, n, C, q, h₃, hall⟩
  have hq : q = 1 := h.published.returned.symm.trans hone
  obtain ⟨r, hr⟩ := h.aligns hpc hall (by rw [hreads, h.published.length_committed, hq]; exact Nat.one_pos)
  have hmoves : SyncPc.leaving ≠ σ.pc := by rw [hpc]; decide
  have h' := h.subscribes (.aligned r hpc hr) hmoves
  have horder := (ReaderKind.syncLaws subscriberOpts rfl .shared).order h'.reader
  refine ⟨_, hσ.step (.subscribes _ (.aligned r hpc hr) hmoves), h'.all_entries_iff.mp hall, hone, ?_⟩
  simp only [reading, read, Reading.deliver, hreads, List.nil_append] at horder ⊢
  cases hpacket : packetAt σ.fleet.host.mem r.transport with
  | none =>
    rw [hpacket] at horder
    exact horder.1.elim
  | some e => rfl

/-- One packet is published and received. -/
theorem pubsub_lossless_small : ∃ σ, oneOfEach.Reach σ ∧ σ.fleet.returned.length = 1 ∧
    (received σ.reads).length = 1 ∧ Lossless (fun _ => .ofString "w") (fun _ => [bare [7]]) σ := by
  obtain ⟨σ, hσ, hlow, hreturned, hreceived⟩ := received_reach
  exact ⟨σ, hσ, hreturned, hreceived, (pubsub_lossless noJson _ _ _ (by decide)).1 σ hσ hlow⟩

end PubSub

end AlephZero
