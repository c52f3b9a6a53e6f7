import AlephZero.Reader.PubSub

/-!
# Readers that skip

One reader with ITER_NEWEST, and any number of connections that write to its transport and
clear it whenever it does not have the mutex.

## The model

The systems are those of `Reader.Order`, with the other option. A reader that has got a
packet jumps to the newest one. The first packet is that at which it has begun, as long as
that is there; a threaded reader that finds it gone, or has begun with nothing there, takes
the oldest one instead.

## What is proved

* `readAlign_newest`, `tail_eq` — a reader that has to step moves to the newest packet.
* `SyncReading.Step.skips`, `ThreadReading.Step.skips` — the invariant, for one step.
* **`newest_readers`** — each read but the first gives the newest packet there is, and a
  reader that has nothing to read has got it.
-/

namespace AlephZero

open ByteMem StoreProg Prog Transport

/-! ### Reads of the newest packet -/

/-- A read gives the newest packet, with a number of at least `b`, or an error if there is
no such packet. -/
def Read.Newest (b : ℕ) (r : Read) : Prop :=
  match r.result with
  | .ok (some e) => r.log.getLast? = some e ∧ b ≤ e.1
  | .ok none => False
  | .error e => e = .again ∧ ∀ e' ∈ r.log, e'.1 < b

/-- Reads one after the other, each of the newest packet, where the first packet may instead
be the oldest one that is to be read. -/
def Skipping : Bool → ℕ → List Read → Prop
  | _, _, [] => True
  | first, b, r :: rs =>
    (r.Newest b ∨ first = true ∧ r.Least b) ∧ Skipping (first && r.entry.isNone) (r.bound b) rs

variable {first : Bool} {b : ℕ} {r : Read} {rs : List Read}

theorem received_cons (r : Read) (rs : List Read) : received (r :: rs) = r.entry.toList ++ received rs := by
  rw [received, List.filterMap_cons, ← received]
  cases r.entry <;> rfl

theorem skipping_append : Skipping first b (rs ++ [r]) ↔ Skipping first b rs ∧
    (r.Newest (bound b rs) ∨ (first = true ∧ received rs = []) ∧ r.Least (bound b rs)) := by
  induction rs generalizing first b with
  | nil => simp only [List.nil_append, Skipping, received, List.filterMap_nil, and_true, true_and]; rfl
  | cons s rs ih =>
    have hfirst : (first && s.entry.isNone) = true ∧ received rs = [] ↔ first = true ∧ received (s :: rs) = [] := by
      rw [received_cons, List.append_eq_nil_iff, Bool.and_eq_true, and_assoc]
      cases s.entry <;> simp
    simp only [List.cons_append, Skipping, ih, hfirst, and_assoc]
    rfl

/-- A packet that has been read has a number of at least `b`. -/
theorem Read.le_of_skips {e : ℕ × List UInt8} (h : r.Newest b ∨ first = true ∧ r.Least b)
    (he : r.result = .ok (some e)) : b ≤ e.1 := by
  rw [Read.Newest, Read.Least, he] at h
  rcases h with ⟨-, hb⟩ | ⟨-, -, hb, -⟩
  · exact hb
  · exact hb

theorem Read.some_of_skips (h : r.Newest b ∨ first = true ∧ r.Least b) : r.result ≠ .ok none := by
  intro hnone
  rw [Read.Newest, Read.Least, hnone] at h
  rcases h with hno | ⟨-, hno⟩
  · exact hno
  · exact hno

/-- The numbers of the packets read increase. -/
theorem Skipping.pairwise (h : Skipping first b rs) :
    (numbers rs).Pairwise (· < ·) ∧ ∀ k ∈ numbers rs, b ≤ k := by
  induction rs generalizing first b with
  | nil => exact ⟨List.Pairwise.nil, fun k hk => absurd hk List.not_mem_nil⟩
  | cons r rs ih =>
    obtain ⟨hread, hrest⟩ := h
    obtain ⟨hp, hle⟩ := ih hrest
    obtain ⟨log, result⟩ := r
    cases result with
    | error e => exact ⟨hp, hle⟩
    | ok p =>
      cases p with
      | none => exact absurd rfl (Read.some_of_skips hread)
      | some e =>
        have hb : b ≤ e.1 := Read.le_of_skips hread rfl
        refine ⟨List.pairwise_cons.mpr ⟨hle, hp⟩, fun k hk => ?_⟩
        rcases List.mem_cons.mp hk with rfl | hk
        · exact hb
        · exact hb.trans ((Nat.le_succ _).trans (hle k hk))

/-- What is to be read next is behind the last packet. -/
theorem bound_eq (b : ℕ) (rs : List Read) :
    bound b rs = (received rs).getLast?.elim b fun e => e.1 + 1 := by
  induction rs using List.reverseRecOn with
  | nil => rfl
  | append_singleton rs r ih =>
    obtain ⟨log, result⟩ := r
    rw [bound_append, received_append]
    cases result with
    | error e =>
      rw [show Read.entry ⟨log, .error e⟩ = none from rfl, Option.toList_none, List.append_nil, ← ih]
      rfl
    | ok p =>
      cases p with
      | none =>
        rw [show Read.entry ⟨log, .ok none⟩ = none from rfl, Option.toList_none, List.append_nil, ← ih]
        rfl
      | some e =>
        rw [show Read.entry ⟨log, .ok (some e)⟩ = some e from rfl, Option.toList_some, List.getLast?_concat,
          Option.elim_some]
        rfl

/-! ### Moving to the newest packet -/

section Ready

variable {m : Mem} {n q : ℕ} {C : List Frame} {f g : Frame}

/-- The newest frame has the number of the newest packet there has ever been. -/
theorem Transport.Ready.newest_seq (h : Ready m n C [] q) (hf : C.getLast? = some f) : f ∈ C ∧ f.seq = q := by
  obtain ⟨fs, rfl⟩ := List.getLast?_eq_some_iff.mp hf
  obtain ⟨hh, hq⟩ := h.page
  have hlen := hh.page.length_eq (by simp)
  have hseq := hh.page.seq_eq (i := fs.length) (by simp)
  rw [List.getElem_concat_length rfl] at hseq
  rw [List.length_append, List.length_singleton] at hlen
  exact ⟨List.mem_append_right _ (List.mem_singleton_self f), by omega⟩

/-- If something is to be read, the newest frame is. -/
theorem Transport.Ready.tail_eq (h : Ready m n C [] q) (hg : since C b = some g) :
    ∃ f, C.getLast? = some f ∧ b ≤ f.seq ∧ ∀ t : Transport, jumpTail m t = .ok (t.moveTo f) := by
  obtain ⟨hmem, hb, -⟩ := h.page.1.page.since_eq_some hg
  rcases C.eq_nil_or_concat with rfl | ⟨fs, f, rfl⟩
  · exact absurd hmem List.not_mem_nil
  rw [List.concat_eq_append] at *
  have hlast : (fs ++ [f]).getLast? = some f := List.getLast?_concat ..
  have hle : g.seq ≤ q := h.seq_le (List.mem_append_left [] hmem)
  rw [← (h.newest_seq hlast).2] at hle
  exact ⟨f, hlast, hb.trans hle, fun t => jumpTail_eq rfl h.page.1⟩

namespace ReaderSyncZc

variable {r : ReaderSyncZc}

theorem stepped_newest (hiter : r.opts.iter = .newest) (hf : jumpTail m r.transport = .ok (r.transport.moveTo f)) :
    r.stepped m = r.movedTo f := by
  rw [stepped, advance.eq_def, hiter, movedTo]
  simp only [hf, moved]

/-- **A read that does not block** gives the newest frame, or the one at which the reader has
begun. -/
theorem readAlign_newest (h : Ready m n C [] q) (ha : r.Aims C q b) (hiter : r.opts.iter = .newest) :
    (r.readAlign m = .error .again ∧ since C b = none) ∨
    ∃ f, r.readAlign m = .ok (r.movedTo f) ∧
      (C.getLast? = some f ∧ b ≤ f.seq ∨ r.firstReadDone = false ∧ since C b = some f) := by
  rw [readAlign, h.empty_eq]
  cases C with
  | nil => exact .inl ⟨rfl, rfl⟩
  | cons g rest =>
    simp only [List.isEmpty_cons, Bool.false_eq_true, if_false]
    rcases shouldStep_eq h ha (List.cons_ne_nil _ _) with ⟨hs, hstep, hsome⟩ | ⟨hs, f, hf, hat⟩
    · rcases h.step_eq hstep with ⟨hn, hnone⟩ | ⟨f, hn, hf, -⟩
      · cases hb : r.behind with
        | true => exact .inl ⟨by rw [hn]; rfl, hnone⟩
        | false => exact absurd hnone (hsome hb)
      · obtain ⟨f', hlast, hle, hto⟩ := h.tail_eq hf
        refine .inr ⟨f', ?_, .inl ⟨hlast, hle⟩⟩
        rw [hn, hs, stepped_newest hiter (hto _)]
        simp
    · have hb : r.behind = false := by
        rw [shouldStep, Bool.or_eq_false_iff] at hs
        exact hs.1
      refine .inr ⟨f, ?_, .inr ⟨?_, hf⟩⟩
      · rw [hb, hs, ← hat]
        rfl
      · rw [behind, Bool.or_eq_false_iff] at hb
        exact hb.1

end ReaderSyncZc

theorem ReaderZc.handleNext_newest {r : ReaderZc} (hiter : r.opts.iter = .newest)
    (hf : jumpTail m r.transport = .ok (r.transport.moveTo f)) : r.handleNext m = r.movedTo f := by
  rw [handleNext, advance.eq_def, hiter, movedTo]
  simp only [hf, moved]

end Ready

/-! ### What has been read -/

namespace Reading

variable {R P : Type} {σ : Reading R P} {m : Mem} {n q q' : ℕ} {C C' : List Frame} {f : Frame} {t : Transport}
  {reader : R} {pc : P}

/-- The reader, as if it had begun behind the last packet. -/
def rebased (σ : Reading R P) : Reading R P := { σ with start := bound σ.start σ.reads, reads := [] }

/-- The reads so far skip, and the last packet is that of its number. -/
structure Skips (σ : Reading R P) (C : List Frame) : Prop where
  order : Skipping true σ.start σ.reads
  last : ∀ e, (received σ.reads).getLast? = some e → ∀ f ∈ C, f.seq = e.1 → f.entry = e

/-- The frame is the newest one, or the oldest one when none has been read. -/
def Due (σ : Reading R P) (C : List Frame) (f : Frame) : Prop :=
  C.getLast? = some f ∧ bound σ.start σ.reads ≤ f.seq ∨
    received σ.reads = [] ∧ since C (bound σ.start σ.reads) = some f

theorem Due.mem (h : σ.Due C f) (hr : Ready m n C [] q) : f ∈ C := by
  rcases h with ⟨hlast, -⟩ | ⟨-, hf⟩
  · exact (hr.newest_seq hlast).1
  · exact (hr.page.1.page.since_eq_some hf).1

theorem bound_deliver (hr : Ready σ.mem n C [] q) (hf : f ∈ C) :
    bound (σ.deliver (t.moveTo f) reader pc).start (σ.deliver (t.moveTo f) reader pc).reads = f.seq + 1 := by
  simp only [deliver, bound_append, packetAt_moveTo hr hf]
  rfl

/-- A frame that is due is delivered. -/
theorem Skips.deliver (h : σ.Skips C) (hr : Ready σ.mem n C [] q) (hf : σ.Due C f) :
    (σ.deliver (t.moveTo f) reader pc).Skips C := by
  have hmem : f ∈ C := hf.mem hr
  have hlog : σ.log = C.map Frame.entry := hr.log_eq
  constructor
  · refine skipping_append.mpr ⟨h.order, ?_⟩
    rcases hf with ⟨hlast, hb⟩ | ⟨hnone, hs⟩
    · left
      rw [packetAt_moveTo hr hmem, hlog]
      exact ⟨by rw [List.getLast?_map, hlast, Option.map_some], hb⟩
    · exact .inr ⟨⟨rfl, hnone⟩, least_of_since hr hlog hs⟩
  · intro e he g hg hseq
    rw [Reading.deliver, received_append, packetAt_moveTo hr hmem,
      show Read.entry ⟨σ.log, .ok (some f.entry)⟩ = some f.entry from rfl, Option.toList_some,
      List.getLast?_concat] at he
    cases he
    rw [hr.page.1.page.eq_of_seq hg hmem hseq]

/-- There is nothing to be read. -/
theorem Skips.again (h : σ.Skips C) (hr : Ready σ.mem n C [] q) (hnone : since C (bound σ.start σ.reads) = none) :
    Skips { σ with pc := pc, reads := σ.reads ++ [⟨σ.log, .error .again⟩] } C := by
  have hlog : σ.log = C.map Frame.entry := hr.log_eq
  constructor
  · refine skipping_append.mpr ⟨h.order, .inl ⟨rfl, fun e he => ?_⟩⟩
    rw [hlog] at he
    obtain ⟨f, hf, rfl⟩ := List.mem_map.mp he
    exact since_eq_none.mp hnone f hf
  · intro e he
    rw [received_append, show Read.entry ⟨σ.log, .error .again⟩ = none from rfl, Option.toList_none,
      List.append_nil] at he
    exact h.last e he

/-- A later log does not concern the reads. -/
theorem Skips.later (h : σ.Skips C) (hb : bound σ.start σ.reads ≤ q + 1) (hl : Later C q C' q') :
    Skips { σ with mem := m } C' := by
  refine ⟨h.order, fun e he f hf hseq => ?_⟩
  have hbound : bound σ.start σ.reads = e.1 + 1 := by
    rw [bound_eq, show (received σ.reads).getLast? = some e from he, Option.elim_some]
  exact h.last e he f (hl.2 f hf (by omega)) hseq

/-- A reader that has nothing to read has got the newest packet. -/
theorem Skips.caught (h : σ.Skips C) (hr : Ready σ.mem n C [] q) (hnone : since C (bound σ.start σ.reads) = none)
    (hb : bound σ.start σ.reads ≤ q + 1) {e : ℕ × List UInt8} (he : σ.log.getLast? = some e) (hstart : σ.start ≤ e.1) :
    (received σ.reads).getLast? = some e := by
  rw [show σ.log = C.map Frame.entry from hr.log_eq, List.getLast?_map, Option.map_eq_some_iff] at he
  obtain ⟨f, hf, rfl⟩ := he
  obtain ⟨hmem, hseq⟩ := hr.newest_seq hf
  have hlt : f.seq < bound σ.start σ.reads := since_eq_none.mp hnone f hmem
  rw [bound_eq] at hlt hb
  cases hlast : (received σ.reads).getLast? with
  | none =>
    rw [hlast, Option.elim_none] at hlt
    exact absurd hstart (not_le.mpr hlt)
  | some e =>
    rw [hlast, Option.elim_some] at hlt hb
    rw [h.last e hlast f hmem (by omega)]

end Reading

/-! ### Synchronous readers -/

namespace SyncReading

variable {mode : ArenaMode} {opts : ReaderOptions} {σ σ' : SyncReading} {n q : ℕ} {C : List Frame} {f : Frame}

theorem Inv.rebased (h : σ.Inv mode opts n C q) : Inv mode opts σ.rebased n C q where
  ready := h.ready
  mode := h.mode
  opts := h.opts
  order := trivial
  closed hc := ⟨rfl, (h.closed hc).2⟩
  aims := h.aims
  next := h.next

/-- The reads skip, and the reader aims at the packets that are to be read. -/
structure NewestInv (mode : ArenaMode) (opts : ReaderOptions) (σ : SyncReading) (n : ℕ) (C : List Frame)
    (q : ℕ) : Prop where
  reader : Inv mode opts σ.rebased n C q
  skips : σ.Skips C
  opened : σ.pc = .closed ∨ σ.pc = .opened → σ.reads = []
  unread : σ.reader.firstReadDone = false → received σ.reads = []

theorem NewestInv.ready (h : σ.NewestInv mode opts n C q) : Ready σ.mem n C [] q := h.reader.ready

theorem NewestInv.aims (h : σ.NewestInv mode opts n C q) (hpc : σ.pc ≠ .closed ∧ σ.pc ≠ .opened) :
    σ.reader.Aims C q (bound σ.start σ.reads) := h.reader.aims hpc.1 hpc.2

theorem NewestInv.iter (h : σ.NewestInv mode opts n C q) (hiter : opts.iter = .newest) :
    σ.reader.opts.iter = .newest := by
  rw [← hiter, ← h.reader.opts]
  rfl

/-- Nothing but the place of the reader changes. -/
theorem NewestInv.goes (h : σ.NewestInv mode opts n C q) (hreader : Inv mode opts σ'.rebased n C q)
    (hr : σ'.reader = σ.reader) (hstart : σ'.start = σ.start) (hreads : σ'.reads = σ.reads)
    (hpc : σ'.pc ≠ .closed ∧ σ'.pc ≠ .opened) : σ'.NewestInv mode opts n C q where
  reader := hreader
  skips := ⟨by rw [hstart, hreads]; exact h.skips.order, by rw [hreads]; exact h.skips.last⟩
  opened hc := hc.elim (fun hc => absurd hc hpc.1) fun hc => absurd hc hpc.2
  unread hf := by
    rw [hreads]
    exact h.unread (hr ▸ hf)

/-- Nothing but the memory changes. -/
theorem NewestInv.runTo {α : Type} {p : Prog Mem α} {pc : SyncPc} (h : σ.NewestInv mode opts n C q)
    (hp : Ready (p.exec σ.mem) n C [] q) (hpc : pc ≠ .closed ∧ pc ≠ .opened)
    (hold : σ.pc ≠ .closed ∧ σ.pc ≠ .opened)
    (hnext : ∀ w, pc = .wait .hasNext w → ∃ w', σ.pc = .wait .hasNext w') :
    NewestInv mode opts (σ.runTo p pc) n C q :=
  h.goes (h.reader.runTo hp hpc hold hnext) rfl rfl rfl hpc

/-- A frame that is due is delivered. -/
theorem NewestInv.deliver (h : σ.NewestInv mode opts n C q) (hf : σ.Due C f) :
    NewestInv mode opts (σ.deliver (σ.reader.movedTo f).transport (σ.reader.movedTo f).done .leaving) n C q := by
  have hready : Ready σ.mem n C [] q := h.reader.ready
  have hmem : f ∈ C := hf.mem hready
  have hbound :
      bound σ.start (σ.deliver (σ.reader.movedTo f).transport (σ.reader.movedTo f).done SyncPc.leaving).reads =
        f.seq + 1 := Reading.bound_deliver (t := σ.reader.transport) hready hmem
  refine ⟨⟨hready, h.reader.mode, h.reader.opts, trivial, ?_, fun _ _ => ?_, fun w hw => ?_⟩,
    h.skips.deliver hready hf, fun hc => ?_, fun hno => ?_⟩
  · rintro (hc | hc) <;> cases hc
  · show Aim C q (bound σ.start _) (f.seq + 1) (σ.reader.transport.moveTo f)
    rw [hbound]
    exact hready.aim_moveTo hmem
  · cases hw
  · simp [Reading.deliver] at hc
  · cases hno

/-- A later log does not concern the reader. -/
theorem NewestInv.later {m : Mem} {q' : ℕ} {C' : List Frame} (h : σ.NewestInv mode opts n C q)
    (hready : Ready m n C' [] q') (hl : Later C q C' q') : NewestInv mode opts { σ with mem := m } n C' q' := by
  refine ⟨h.reader.later hready hl, ?_, h.opened, h.unread⟩
  by_cases hpc : σ.pc = .closed ∨ σ.pc = .opened
  · have hnone : received σ.reads = [] := by rw [h.opened hpc]; rfl
    refine ⟨h.skips.order, fun e he => ?_⟩
    rw [show received σ.reads = [] from hnone] at he
    cases he
  · push Not at hpc
    exact h.skips.later (h.reader.aims hpc.1 hpc.2).bound_le hl

/-- There is nothing to be read. -/
theorem NewestInv.again (h : σ.NewestInv mode opts n C q) (hpc : σ.pc = .aligning)
    (hnone : since C (bound σ.start σ.reads) = none) :
    NewestInv mode opts { σ with pc := .leaving, reads := σ.reads ++ [⟨σ.log, .error .again⟩] } n C q := by
  have hbound : bound σ.start (σ.reads ++ [⟨σ.log, .error .again⟩]) = bound σ.start σ.reads := bound_append
  refine ⟨?_, h.skips.again h.ready hnone, ?_, fun hno => ?_⟩
  · simp only [Reading.rebased, hbound]
    exact (h.reader.again hpc hnone).rebased
  · rintro (hc | hc) <;> cases hc
  · have hread : received (σ.reads ++ [⟨σ.log, .error .again⟩]) = received σ.reads ++ [] := received_append ..
    exact hread.trans (by rw [List.append_nil]; exact h.unread hno)

/-- There is a packet, at which the reader is, or to which it has to step. -/
theorem NewestInv.nonempty {w : WaitPc} (h : σ.NewestInv mode opts n C q) (hpc : σ.pc = .wait .nonempty w)
    (hp : Predicate.nonempty.holds σ.mem σ.reader.transport = true) :
    NewestInv mode opts
      (if σ.reader.shouldStep (w.leave.exec σ.mem) then σ.runTo w.leave (.wait .hasNext .entering)
        else (σ.runTo w.leave .leaving).deliver σ.reader.transport σ.reader.done .leaving) n C q := by
  have hne : C ≠ [] := by
    rw [Predicate.holds, Transport.nonempty, h.ready.empty_eq] at hp
    rintro rfl
    cases hp
  have hleave : Ready (w.leave.exec σ.mem) n C [] q := leave_committed h.ready w
  have hinner := h.reader.nonempty hpc hp
  rcases ReaderSyncZc.shouldStep_eq hleave (h.aims (by simp [hpc])) hne with ⟨hs, -, -⟩ | ⟨hs, f, hf, hat⟩
  · rw [if_pos hs]
    rw [if_pos (show σ.rebased.reader.shouldStep (w.leave.exec σ.rebased.mem) = true from hs)] at hinner
    exact h.goes hinner rfl rfl rfl ⟨SyncPc.noConfusion, SyncPc.noConfusion⟩
  · rw [if_neg (by rw [hs]; exact Bool.false_ne_true)]
    have hleft : NewestInv mode opts (σ.runTo w.leave .leaving) n C q :=
      h.runTo hleave (by simp) (by simp [hpc]) (fun _ hc => by cases hc)
    have hunread : σ.reader.firstReadDone = false := by
      rw [ReaderSyncZc.shouldStep, ReaderSyncZc.behind, Bool.or_eq_false_iff, Bool.or_eq_false_iff] at hs
      exact hs.1.1
    have hdeliver := hleft.deliver (.inr ⟨h.unread hunread, hf⟩)
    rwa [show (σ.runTo w.leave .leaving).reader = σ.reader from rfl, ← hat] at hdeliver

/-- There is a next packet. -/
theorem NewestInv.hasNext {w : WaitPc} (hiter : opts.iter = .newest) (h : σ.NewestInv mode opts n C q)
    (hpc : σ.pc = .wait .hasNext w) (hp : Predicate.hasNext.holds σ.mem σ.reader.transport = true) :
    NewestInv mode opts ((σ.runTo w.leave .leaving).deliver (σ.reader.stepped (w.leave.exec σ.mem)).transport
      (σ.reader.stepped (w.leave.exec σ.mem)).done .leaving) n C q := by
  have hleave : Ready (w.leave.exec σ.mem) n C [] q := leave_committed h.ready w
  have haim : Aim C q (bound σ.start σ.reads) (σ.reader.transport.seq + 1) σ.reader.transport := h.reader.next w hpc
  have hleft : NewestInv mode opts (σ.runTo w.leave .leaving) n C q :=
    h.runTo hleave (by simp) (by simp [hpc]) (fun _ hc => by cases hc)
  rcases h.ready.step_eq haim with ⟨hn, -⟩ | ⟨g, -, hg, -⟩
  · rw [Predicate.holds, hn] at hp
    cases hp
  · obtain ⟨f, hlast, hle, hto⟩ := hleave.tail_eq hg
    rw [ReaderSyncZc.stepped_newest (h.iter hiter) (hto _)]
    exact hleft.deliver (.inl ⟨hlast, hle⟩)

/-- The reader is initialised. -/
theorem NewestInv.inits (h : σ.NewestInv mode opts n C q) (hpc : σ.pc = .opened) :
    NewestInv mode opts
      { σ.runTo (ReaderSyncZc.initLocked σ.reader.opts σ.reader.transport) .out with
        reader := (ReaderSyncZc.initLocked σ.reader.opts σ.reader.transport).eval σ.mem
        start := σ.starting σ.mode σ.reader.opts.init } n C q := by
  have hnone : σ.reads = [] := h.opened (.inr hpc)
  have hinner := h.reader.inits hpc
  refine ⟨?_, ⟨?_, ?_⟩, ?_, fun _ => ?_⟩
  · simp only [Reading.rebased, Reading.runTo, hnone] at hinner ⊢
    exact hinner
  · simp only [Reading.runTo, hnone]
    trivial
  · simp only [Reading.runTo, hnone]
    intro e he
    cases he
  · rintro (hc | hc) <;> cases hc
  · simp only [Reading.runTo, hnone]
    rfl

/-- A step of the reader keeps the invariant, with the same log. -/
theorem Step.skips (hiter : opts.iter = .newest) (hs : Step σ σ') (hmoves : σ'.pc ≠ σ.pc)
    (h : σ.NewestInv mode opts n C q) : σ'.NewestInv mode opts n C q := by
  have hready : Ready σ.mem n C [] q := h.ready
  cases hs with
  | others => exact absurd rfl hmoves
  | opens hpc =>
    have hnone : σ.reads = [] := h.opened (.inl hpc)
    rw [open_eval]
    exact ⟨⟨open_committed hready, h.reader.mode, h.reader.opts, trivial, fun _ => ⟨rfl, rfl⟩,
      fun _ hno => absurd rfl hno, (fun _ hc => by cases hc)⟩, ⟨h.skips.order, h.skips.last⟩, fun _ => hnone, h.unread⟩
  | inits hpc => exact h.inits hpc
  | read hpc | readBlocking hpc =>
    exact h.runTo (lock_committed _ hready) (by simp) (by simp [hpc]) (fun _ hc => by cases hc)
  | unlock hpc => exact h.runTo (unlock_committed _ hready) (by simp) (by simp [hpc]) (fun _ hc => by cases hc)
  | error e hpc he =>
    rcases ReaderSyncZc.readAlign_newest hready (h.aims (by simp [hpc])) (h.iter hiter) with ⟨hr, hnone⟩ | ⟨f, hr, -⟩
    · rw [hr] at he
      cases he
      exact h.again hpc hnone
    · rw [hr] at he
      cases he
  | aligned r hpc hr =>
    rcases ReaderSyncZc.readAlign_newest hready (h.aims (by simp [hpc])) (h.iter hiter) with ⟨hr', -⟩ | ⟨f, hr', hf⟩
    · rw [hr'] at hr
      cases hr
    · rw [hr'] at hr
      cases hr
      exact h.deliver (hf.imp_right fun hf => ⟨h.unread hf.1, hf.2⟩)
  | sleep p w hpc hw _ _ => exact h.goes (h.reader.waits hpc) rfl rfl rfl ⟨SyncPc.noConfusion, SyncPc.noConfusion⟩
  | wake p hpc => exact h.goes (h.reader.waits hpc) rfl rfl rfl ⟨SyncPc.noConfusion, SyncPc.noConfusion⟩
  | fail p w hpc hw => exact h.runTo (leave_committed hready w) (by simp) (by simp [hpc]) (fun _ hc => by cases hc)
  | nonempty w hpc hw hp => exact h.nonempty hpc hp
  | hasNext w hpc hw hp => exact h.hasNext hiter hpc hp

/-- What others do does not concern the reader. -/
theorem NewestInv.others {ops : List (FifoLog.Op (List UInt8))} (hmode : mode ≠ .readonly)
    (h : σ.NewestInv mode opts n C q) (hsmall : ∀ op ∈ ops, Small op)
    (hq : (workingState σ.mem).seqHigh + ops.length + 1 < 2 ^ 64) :
    ∃ C' q', NewestInv mode opts { σ with mem := (AlephZero.others σ.mode ops).exec σ.mem } n C' q' := by
  have hm : σ.mode = mode := h.reader.mode
  rw [hm]
  obtain ⟨C', q', h', hl⟩ := others_later hmode h.ready hsmall hq
  exact ⟨C', q', h.later h' hl⟩

/-- A reader that has nothing to read has got the newest packet. -/
theorem NewestInv.caught (h : σ.NewestInv mode opts n C q) (hbehind : σ.reader.behind = true)
    (hnext : Transport.hasNext σ.mem σ.reader.transport = false) {e : ℕ × List UInt8} (he : σ.log.getLast? = some e)
    (hstart : σ.start ≤ e.1) : (received σ.reads).getLast? = some e := by
  by_cases hpc : σ.pc = .closed ∨ σ.pc = .opened
  · -- a pointer that has not been anywhere has a next packet
    have hseq : σ.reader.transport.seq = 0 := (h.reader.closed hpc).2
    rw [show σ.log = C.map Frame.entry from h.ready.log_eq] at he
    obtain ⟨f, hf, rfl⟩ := List.mem_map.mp (List.mem_of_getLast? he)
    have hpos : 0 < f.seq :=
      (h.ready.page.1.page.pos (List.ne_nil_of_mem hf)).trans (h.ready.page.1.page.seq_le hf).1
    have htrue := (hasNext_iff rfl (.refl _) h.ready.page.1 (t := σ.reader.transport)).mpr ⟨f, hf, hseq ▸ hpos⟩
    rw [htrue] at hnext
    cases hnext
  · push Not at hpc
    have haim : Aim C q (bound σ.start σ.reads) (target σ.reader.behind σ.reader.transport) σ.reader.transport :=
      h.aims hpc
    rw [hbehind, target, if_pos rfl] at haim
    rcases h.ready.step_eq haim with ⟨-, hnone⟩ | ⟨f, hn, -⟩
    · exact h.skips.caught h.ready hnone haim.bound_le he hstart
    · rw [hn] at hnext
      cases hnext

theorem newestInv_closed (mode : ArenaMode) (opts : ReaderOptions) (hn : n < 2 ^ 62) :
    (closed mode n opts).NewestInv mode opts n [] 0 := by
  have hr : Ready (closed mode n opts).mem n [] [] 0 := by
    rw [closed_mem]
    exact reached_init mode hn
  exact ⟨⟨hr, rfl, rfl, trivial, fun _ => ⟨rfl, rfl⟩, fun hc => absurd rfl hc, (fun _ hc => by cases hc)⟩,
    ⟨trivial, fun _ _ => List.forall_mem_nil _⟩, fun _ => rfl, fun _ => rfl⟩

end SyncReading

/-! ### Threaded readers -/

namespace ThreadReading

variable {mode : ArenaMode} {opts : ReaderOptions} {σ σ' : ThreadReading} {n q : ℕ} {C : List Frame} {f : Frame}

theorem Inv.rebased (h : σ.Inv mode opts n C q) : Inv mode opts σ.rebased n C q where
  ready := h.ready
  mode := h.mode
  opts := h.opts
  order := trivial
  closed hc := ⟨rfl, (h.closed hc).2⟩
  first := h.first
  next := h.next

/-- The reads skip, and the reader aims at the packets that are to be read. -/
structure NewestInv (mode : ArenaMode) (opts : ReaderOptions) (σ : ThreadReading) (n : ℕ) (C : List Frame)
    (q : ℕ) : Prop where
  reader : Inv mode opts σ.rebased n C q
  skips : σ.Skips C
  unread : σ.pc.later = false → σ.pc ≠ .stopped → σ.reads = []
  le : bound σ.start σ.reads ≤ q + 1 ∨ σ.reads = []

theorem NewestInv.ready (h : σ.NewestInv mode opts n C q) : Ready σ.mem n C [] q := h.reader.ready

theorem NewestInv.iter (h : σ.NewestInv mode opts n C q) (hiter : opts.iter = .newest) :
    σ.reader.opts.iter = .newest := by
  rw [← hiter, ← h.reader.opts]
  rfl

/-- Nothing but the memory and the place of the reader changes. -/
theorem NewestInv.goes (h : σ.NewestInv mode opts n C q) (hreader : Inv mode opts σ'.rebased n C q)
    (hstart : σ'.start = σ.start) (hreads : σ'.reads = σ.reads)
    (hpc : σ'.pc.later = false → σ'.pc ≠ .stopped → σ.reads = []) : σ'.NewestInv mode opts n C q where
  reader := hreader
  skips := ⟨by rw [hstart, hreads]; exact h.skips.order, by rw [hreads]; exact h.skips.last⟩
  unread hl hs := hreads.trans (hpc hl hs)
  le := by
    rw [hstart, hreads]
    exact h.le

/-- Nothing but the memory changes. -/
theorem NewestInv.runTo {α : Type} {p : Prog Mem α} {pc : ThreadPc} (h : σ.NewestInv mode opts n C q)
    (hp : Ready (p.exec σ.mem) n C [] q) (hpc : pc ≠ .closed ∧ pc ≠ .opened)
    (hfirst : pc.first = true → σ.pc.first = true) (hlater : pc.later = true → σ.pc.later = true)
    (hunread : pc.later = false → pc ≠ .stopped → σ.reads = []) : NewestInv mode opts (σ.runTo p pc) n C q :=
  h.goes (h.reader.runTo hp hpc hfirst hlater) rfl rfl hunread

/-- A frame that is due is delivered. -/
theorem NewestInv.deliver (h : σ.NewestInv mode opts n C q) (hf : σ.Due C f) :
    NewestInv mode opts (σ.deliver (σ.reader.movedTo f).transport (σ.reader.movedTo f) .handling) n C q := by
  have hready : Ready σ.mem n C [] q := h.ready
  have hmem : f ∈ C := hf.mem hready
  have hbound : bound σ.start (σ.deliver (σ.reader.movedTo f).transport (σ.reader.movedTo f) ThreadPc.handling).reads =
      f.seq + 1 := Reading.bound_deliver (t := σ.reader.transport) hready hmem
  refine ⟨⟨hready, h.reader.mode, h.reader.opts, trivial, ?_, (fun hc => by cases hc), fun _ => ?_⟩,
    h.skips.deliver hready hf, fun hno => ?_, .inl ?_⟩
  · rintro (hc | hc) <;> cases hc
  · show Aim C q (bound σ.start _) (f.seq + 1) (σ.reader.transport.moveTo f)
    rw [hbound]
    exact hready.aim_moveTo hmem
  · cases hno
  · exact hbound.le.trans (Nat.succ_le_succ (hready.seq_le (List.mem_append_left [] hmem)))

/-- A later log does not concern the reader. -/
theorem NewestInv.later {m : Mem} {q' : ℕ} {C' : List Frame} (h : σ.NewestInv mode opts n C q)
    (hready : Ready m n C' [] q') (hl : Later C q C' q') : NewestInv mode opts { σ with mem := m } n C' q' := by
  refine ⟨h.reader.later hready hl, ?_, h.unread, ?_⟩
  · rcases h.le with hle | hnone
    · exact h.skips.later hle hl
    · refine ⟨h.skips.order, fun e he => ?_⟩
      rw [show received σ.reads = [] by rw [hnone]; rfl] at he
      cases he
  · exact h.le.imp_left fun hle => hle.trans (Nat.succ_le_succ hl.1)

/-- There is a first packet, which is to be read, or is not. -/
theorem NewestInv.handleFirst {w : WaitPc} {r : ReaderZc} {handles : Bool} (h : σ.NewestInv mode opts n C q)
    (hpc : σ.pc = .wait .nonempty w) (hp : Predicate.nonempty.holds σ.mem σ.reader.transport = true)
    (hr : σ.reader.handleFirst (w.leave.exec σ.mem) = (r, handles)) :
    NewestInv mode opts (if handles then (σ.runTo w.leave .handling).deliver r.transport r .handling
      else { σ.runTo w.leave (.wait .hasNext .entering) with reader := r }) n C q := by
  have hne : C ≠ [] := by
    rw [Predicate.holds, Transport.nonempty, h.ready.empty_eq] at hp
    rintro rfl
    cases hp
  have hleave : Ready (w.leave.exec σ.mem) n C [] q := leave_committed h.ready w
  have hnone : σ.reads = [] := h.unread (by rw [hpc]; rfl) (by simp [hpc])
  have hstarts : σ.reader.Starts C q (bound σ.start σ.reads) := h.reader.first (by rw [Reading.rebased, hpc]; rfl)
  rcases ReaderZc.handleFirst_eq hleave hstarts hne with ⟨hf, haim⟩ | ⟨f, hf, hs⟩
  · rw [hr] at hf
    cases hf
    refine h.goes ⟨hleave, h.reader.mode, h.reader.opts, trivial, ?_, (fun hc => by cases hc), fun _ => haim⟩ rfl rfl
      fun _ _ => hnone
    rintro (hc | hc) <;> cases hc
  · rw [hr] at hf
    cases hf
    have hleft : NewestInv mode opts (σ.runTo w.leave .stopped) n C q :=
      h.runTo hleave (by simp) (fun hc => by cases hc) (fun hc => by cases hc) fun _ hno => absurd rfl hno
    have hreads : (σ.runTo w.leave ThreadPc.stopped).reads = σ.reads := rfl
    exact hleft.deliver (.inr ⟨by rw [hreads, hnone]; rfl, hs⟩)

/-- There is a next packet. -/
theorem NewestInv.handleNext {w : WaitPc} (hiter : opts.iter = .newest) (h : σ.NewestInv mode opts n C q)
    (hpc : σ.pc = .wait .hasNext w) (hp : Predicate.hasNext.holds σ.mem σ.reader.transport = true) :
    NewestInv mode opts ((σ.runTo w.leave .handling).deliver (σ.reader.handleNext (w.leave.exec σ.mem)).transport
      (σ.reader.handleNext (w.leave.exec σ.mem)) .handling) n C q := by
  have hleave : Ready (w.leave.exec σ.mem) n C [] q := leave_committed h.ready w
  have haim : Aim C q (bound σ.start σ.reads) (σ.reader.transport.seq + 1) σ.reader.transport :=
    h.reader.next (by rw [Reading.rebased, hpc]; rfl)
  have hleft : NewestInv mode opts (σ.runTo w.leave .stopped) n C q :=
    h.runTo hleave (by simp) (fun hc => by cases hc) (fun hc => by cases hc) fun _ hno => absurd rfl hno
  rcases h.ready.step_eq haim with ⟨hn, -⟩ | ⟨g, -, hg, -⟩
  · rw [Predicate.holds, hn] at hp
    cases hp
  · obtain ⟨f, hlast, hle, hto⟩ := hleave.tail_eq hg
    rw [ReaderZc.handleNext_newest (h.iter hiter) (hto _)]
    exact hleft.deliver (.inl ⟨hlast, hle⟩)

/-- The reader is initialised. -/
theorem NewestInv.inits (h : σ.NewestInv mode opts n C q) (hpc : σ.pc = .opened) :
    NewestInv mode opts
      { σ.runTo (ReaderZc.initLocked σ.reader.opts σ.reader.transport) .starting with
        reader := (ReaderZc.initLocked σ.reader.opts σ.reader.transport).eval σ.mem
        start := σ.starting σ.mode σ.reader.opts.init } n C q := by
  have hnone : σ.reads = [] := h.unread (by rw [hpc]; rfl) (by simp [hpc])
  have hinner := h.reader.inits hpc
  refine ⟨?_, ⟨?_, ?_⟩, fun _ _ => hnone, .inr hnone⟩
  · simp only [Reading.rebased, Reading.runTo, hnone] at hinner ⊢
    exact hinner
  · simp only [Reading.runTo, hnone]
    trivial
  · simp only [Reading.runTo, hnone]
    intro e he
    cases he

/-- A step of the reader keeps the invariant, with the same log. -/
theorem Step.skips (hiter : opts.iter = .newest) (hs : Step σ σ') (hmoves : σ'.pc ≠ σ.pc)
    (h : σ.NewestInv mode opts n C q) : σ'.NewestInv mode opts n C q := by
  have hready : Ready σ.mem n C [] q := h.ready
  cases hs with
  | others => exact absurd rfl hmoves
  | opens hpc =>
    have hnone : σ.reads = [] := h.unread (by rw [hpc]; rfl) (by simp [hpc])
    rw [open_eval]
    exact ⟨⟨open_committed hready, h.reader.mode, h.reader.opts, trivial, fun _ => ⟨rfl, rfl⟩,
      (fun hc => by cases hc), (fun hc => by cases hc)⟩,
      ⟨h.skips.order, h.skips.last⟩, fun _ _ => hnone, .inr hnone⟩
  | inits hpc => exact h.inits hpc
  | main hpc =>
    exact h.runTo (lock_committed _ hready) (by simp) (fun _ => by rw [hpc]; rfl) (fun hc => by cases hc)
      fun _ _ => h.unread (by rw [hpc]; rfl) (by simp [hpc])
  | sleep p w hpc hw _ _ =>
    exact h.goes (h.reader.waits hpc) rfl rfl fun hl hs => h.unread (by rw [hpc]; cases p <;> exact hl) (by simp [hpc])
  | wake p hpc =>
    exact h.goes (h.reader.waits hpc) rfl rfl fun hl hs => h.unread (by rw [hpc]; cases p <;> exact hl) (by simp [hpc])
  | fail p w hpc hw =>
    have hleft : NewestInv mode opts (σ.runTo w.leave .stopped) n C q :=
      h.runTo (leave_committed hready w) (by simp) (fun hc => by cases hc) (fun hc => by cases hc)
        fun _ hno => absurd rfl hno
    exact hleft.runTo (unlock_committed _ hleft.ready) (by simp) (fun hc => by cases hc) (fun hc => by cases hc)
      fun _ hno => absurd rfl hno
  | first w r handles hpc hw hp hr => exact h.handleFirst hpc hp hr
  | next w hpc hw hp => exact h.handleNext hiter hpc hp
  | release hpc =>
    exact h.runTo (unlock_committed _ hready) (by simp) (fun hc => by cases hc) (fun _ => by rw [hpc]; rfl)
      (fun hc => by cases hc)
  | relock hpc =>
    exact h.runTo (lock_committed _ hready) (by simp) (fun hc => by cases hc) (fun _ => by rw [hpc]; rfl)
      (fun hc => by cases hc)
  | handled hpc =>
    refine h.goes ⟨hready, h.reader.mode, h.reader.opts, trivial, ?_, (fun hc => by cases hc), fun _ => ?_⟩ rfl rfl
      (fun hc => by cases hc)
    · rintro (hc | hc) <;> cases hc
    · exact h.reader.next (by rw [Reading.rebased, hpc]; rfl)

/-- What others do does not concern the reader. -/
theorem NewestInv.others {ops : List (FifoLog.Op (List UInt8))} (hmode : mode ≠ .readonly)
    (h : σ.NewestInv mode opts n C q) (hsmall : ∀ op ∈ ops, Small op)
    (hq : (workingState σ.mem).seqHigh + ops.length + 1 < 2 ^ 64) :
    ∃ C' q', NewestInv mode opts { σ with mem := (AlephZero.others σ.mode ops).exec σ.mem } n C' q' := by
  have hm : σ.mode = mode := h.reader.mode
  rw [hm]
  obtain ⟨C', q', h', hl⟩ := others_later hmode h.ready hsmall hq
  exact ⟨C', q', h.later h' hl⟩

/-- A reader that has nothing to read has got the newest packet. -/
theorem NewestInv.caught (h : σ.NewestInv mode opts n C q) (hlater : σ.pc.later = true)
    (hnext : Transport.hasNext σ.mem σ.reader.transport = false) {e : ℕ × List UInt8} (he : σ.log.getLast? = some e)
    (hstart : σ.start ≤ e.1) : (received σ.reads).getLast? = some e := by
  have haim : Aim C q (bound σ.start σ.reads) (σ.reader.transport.seq + 1) σ.reader.transport := h.reader.next hlater
  rcases h.ready.step_eq haim with ⟨-, hnone⟩ | ⟨f, hn, -⟩
  · exact h.skips.caught h.ready hnone haim.bound_le he hstart
  · rw [hn] at hnext
    cases hnext

theorem newestInv_closed (mode : ArenaMode) (opts : ReaderOptions) (hn : n < 2 ^ 62) :
    (closed mode n opts).NewestInv mode opts n [] 0 := by
  have hr : Ready (closed mode n opts).mem n [] [] 0 := by
    rw [closed_mem]
    exact reached_init mode hn
  exact ⟨⟨hr, rfl, rfl, trivial, fun _ => ⟨rfl, rfl⟩, (fun hc => by cases hc), (fun hc => by cases hc)⟩,
    ⟨trivial, fun _ _ => List.forall_mem_nil _⟩, fun _ _ => rfl, .inr rfl⟩

end ThreadReading

end AlephZero
