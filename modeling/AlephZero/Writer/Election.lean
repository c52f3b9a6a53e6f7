import AlephZero.Writer.Fleet
import AlephZero.Writer.Standard

/-!
# Electing a writer

`a0_cfg_write_if_empty`, called any number of times by any processes on a topic that is
empty at first, each time with a flag that is to say whether the packet was written.

## The model

A call is a writer of a `Fleet` with one packet to write, and with `a0_write_if_empty` in
front of the standard headers. Flags are in memory of their own.

## What is proved

* `Inv.step` — at most one packet is appended, and the lock is released once, in any run.
* `not_elected` — a flag is set though the packet is not appended.
* **`elected`** — if each packet that gets the lock of an empty topic fits into the arena,
  a flag is set if and only if its packet is appended.
-/

namespace AlephZero

open ByteMem StoreProg Prog Transport

namespace Election

variable {Val ι : Type} {json : Yyjson Val} {mode : ArenaMode} {out : Buf} {h : Host}
  {pkt pkt' : Packet} {m : Mem} {n q : ℕ} {C : List Frame} {id : ι → CString} {data flag : ι → ℕ}

/-- The writer of `a0_cfg_write_if_empty`. -/
def writer (id : ι → CString) (data flag : ι → ℕ) (i : ι) : Build Provided :=
  .wrap (.leaf (.writeIfEmpty (some (flag i)))) (standardWriter (id i) (data i))

/-- Calls with these packets. -/
def runs [DecidableEq ι] (json : Yyjson Val) (mode : ArenaMode) (id : ι → CString) (data flag : ι → ℕ)
    (pkt : ι → Packet) : TransitionSystem (Fleet ι) :=
  Fleet.runs json mode (writer id data flag) fun i => [pkt i]

/-- At most one packet is appended, each flag says whether its packet is, and each call has
taken the lock once and released it once. -/
structure Elected (flag : ι → ℕ) (σ : Fleet ι) : Prop where
  atMostOne : (σ.returned.flatMap Returned.added).length ≤ 1
  own : ∀ r ∈ σ.returned, ∀ e ∈ r.added, ∃ s : Stamp, e.2 = (r.pkt.stamped s).wire
  flag : ∀ r ∈ σ.returned, σ.host.heap (flag r.writer) = 1 ↔ r.added ≠ []
  released : ∀ r ∈ σ.returned, r.acquired = 1 ∧ r.released = 1

/-- The packet fits into the arena with the headers that it gets under the lock, or the
topic is not empty. -/
def HasRoom (mode : ArenaMode) (h : Host) (pkt : Packet) : Prop :=
  empty ((lock mode).exec h.mem) = true →
    ∀ text, seqText (workingState ((lock mode).exec h.mem)).seqHigh = some text →
      184 + (pkt.stampedLate text h.mono).stats.serialSize ≤ arenaSize h.mem

/-- The runs in which each packet that gets the lock has room. -/
def roomy [DecidableEq ι] (json : Yyjson Val) (mode : ArenaMode) (id : ι → CString) (data flag : ι → ℕ)
    (pkt : ι → Packet) : TransitionSystem (Fleet ι) where
  init := (runs json mode id data flag pkt).init
  step σ τ := (runs json mode id data flag pkt).step σ τ ∧
    ∀ i pkt pkt', σ.pending i = some (pkt, pkt') → τ.pending i = none → HasRoom mode σ.host pkt'

/-! ### One call -/

theorem leaves_writer (i : ι) : (writer id data flag i).leaves =
    .writeIfEmpty (some (flag i)) :: ((addStandardHeaders (id i) (data i)).leaves ++ []) := rfl

/-- Before the lock. -/
theorem processPhase_eq (i : ι) (h : Host) (pkt : Packet) : processPhase (writer id data flag i).leaves h pkt =
    match seqText (h.heap (data i)) with
    | none => none
    | some text => some (pkt.stampedEarly text (id i) h.wall,
        (setHeap (data i) (wrap (h.heap (data i) + 1))).exec h) := rfl

/-- Under the lock. -/
theorem lockedPhase_eq (i : ι) (m : Mem) (mono : CString) (pkt : Packet) :
    lockedPhase json mode m mono (writer id data flag i).leaves pkt =
      if empty m then
        match seqText (workingState m).seqHigh with
        | none => .stuck
        | some text => .append (pkt.stampedLate text mono)
      else .declined := rfl

/-- The standard headers and the write action store nothing to the heap under the lock. -/
theorem standard_heap (i : ι) : ((chainOf true (writeAction mode out).processLocked
    (((addStandardHeaders (id i) (data i)).leaves ++ []).map (Provided.leaf json mode)) pkt).exec h).heap = h.heap := by
  have hleaves : (addStandardHeaders (id i) (data i)).leaves =
      [.timeMono, .timeWall, .writerId (id i), .writerSeq (data i), .transportSeq] := rfl
  simp -implicitDefEqProofs only [hleaves, List.append_nil, List.map_cons, List.map_nil, chainOf, Provided.leaf,
    addTimeMonoHeader, addTimeWallHeader, addWriterIdHeader, addWriterSeqHeader, addTransportSeqHeader, Leaf.fn,
    if_true, exec_bind, eval_read, exec_read]
  cases seqText (workingState h.mem).seqHigh with
  | none => rw [exec_pure]
  | some text => rfl

/-- The flag says whether the topic was empty. -/
theorem critical_heap (i : ι) : (((Locking.host mode).critical json mode out (writer id data flag i).leaves
    pkt).exec h).heap = fun x => if x = flag i then (empty ((lock mode).exec h.mem)).toNat else h.heap x := by
  have hleaves : (writer id data flag i).leaves.map ((Locking.host mode).leaf json mode) =
      (writer id data flag i).leaves.map (Provided.leaf json mode) :=
    List.map_congr_left fun l _ => Locking.leaf_host json mode l
  have haction : ((Locking.host mode).writeAction mode out).processLocked = (writeAction mode out).processLocked :=
    funext (Locking.writeAction_host mode out)
  rw [Locking.critical, hleaves, haction, exec_bind]
  have hlock : (Locking.host mode).lock.exec h = { h with mem := (lock mode).exec h.mem } := rfl
  rw [hlock, leaves_writer, List.map_cons, chainOf]
  simp only [Provided.leaf, AlephZero.writeIfEmpty, Leaf.fn, if_true, exec_bind, eval_read, exec_read]
  by_cases he : empty ((lock mode).exec h.mem) = true
  · simp only [he, ↓reduceIte, standard_heap]
    rfl
  · simp only [he]
    rfl

/-! ### The invariant -/

variable {σ τ : Fleet ι} {pkts : ι → Packet} {i : ι} {text wid wall : CString}

/-- The frames are those that the calls have appended, one at most; and a call that has
begun has no other packet to write. -/
structure Inv (id : ι → CString) (data flag : ι → ℕ) (σ : Fleet ι) (n : ℕ) (C : List Frame) (q : ℕ) : Prop where
  ready : Ready σ.host.mem n C [] q
  count : C.length = q ∧ q ≤ 1
  added : σ.returned.flatMap Returned.added = C.map Frame.entry
  own : ∀ r ∈ σ.returned, ∀ e ∈ r.added, ∃ s : Stamp, e.2 = (r.pkt.stamped s).wire
  released : ∀ r ∈ σ.returned, r.acquired = 1 ∧ r.released = 1
  once : ∀ i, σ.todo i = [] ∨ ∃ pkt, σ.todo i = [pkt] ∧ σ.pending i = none ∧ ∀ r ∈ σ.returned, r.writer ≠ i
  pending : ∀ i pkt pkt', σ.pending i = some (pkt, pkt') →
    (∃ text id wall, pkt' = pkt.stampedEarly text id wall) ∧ σ.todo i = [] ∧ ∀ r ∈ σ.returned, r.writer ≠ i

/-- A packet that is to be appended is appended to an empty topic, with the standard headers. -/
theorem append_of_locked {mono : CString} (ho : lockedPhase json mode m mono (writer id data flag i).leaves
    (pkt.stampedEarly text wid wall) = .append pkt') :
    empty m = true ∧ ∃ s : Stamp, pkt' = pkt.stamped s := by
  rw [lockedPhase_eq] at ho
  split_ifs at ho with he
  · cases hs : seqText (workingState m).seqHigh with
    | none =>
      rw [hs] at ho
      cases ho
    | some t =>
      rw [hs] at ho
      cases ho
      exact ⟨he, ⟨t, mono, text, wid, wall⟩, rfl⟩

section Steps

variable [DecidableEq ι]

theorem Inv.begun {rest : List Packet} (hi : Inv id data flag σ n C q) (hnone : σ.pending i = none)
    (htodo : σ.todo i = pkt :: rest)
    (hp : processPhase (writer id data flag i).leaves σ.host pkt = some (pkt', h)) :
    Inv id data flag (σ.begun i pkt pkt' rest h) n C q := by
  obtain ⟨pkt₀, htodo₀, -, hret⟩ : ∃ pkt, σ.todo i = [pkt] ∧ σ.pending i = none ∧ ∀ r ∈ σ.returned, r.writer ≠ i := by
    rcases hi.once i with hnil | hsome
    · rw [hnil] at htodo
      cases htodo
    · exact hsome
  rw [htodo₀] at htodo
  cases htodo
  have hstamp : ∃ text id wall, pkt' = pkt.stampedEarly text id wall := by
    rw [processPhase_eq] at hp
    cases hs : seqText (σ.host.heap (data i)) with
    | none =>
      rw [hs] at hp
      cases hp
    | some text =>
      rw [hs] at hp
      cases hp
      exact ⟨text, _, _, rfl⟩
  refine ⟨?_, hi.count, hi.added, hi.own, hi.released, fun j => ?_, fun j p p' hj => ?_⟩
  · simp only [Fleet.begun, processPhase_mem hp]
    exact hi.ready
  · by_cases hij : j = i
    · subst hij
      left
      simp only [Fleet.begun, Function.update_self]
    · simp only [Fleet.begun, Function.update_of_ne hij]
      exact hi.once j
  · by_cases hij : j = i
    · subst hij
      simp only [Fleet.begun, Function.update_self, Option.some.injEq, Prod.mk.injEq] at hj ⊢
      obtain ⟨rfl, rfl⟩ := hj
      exact ⟨hstamp, trivial, hret⟩
    · simp only [Fleet.begun, Function.update_of_ne hij] at hj ⊢
      exact hi.pending j p p' hj

theorem Inv.ended (hmode : mode ≠ .readonly) (hi : Inv id data flag σ n C q) (hp : σ.pending i = some (pkt, pkt'))
    (hret : ((Ledger.locking mode).critical json mode out (writer id data flag i).leaves pkt').eval
      ⟨σ.host, 0, 0⟩ ≠ none)
    (hsize : ∀ pkt'', lockedPhase json mode ((lock mode).exec σ.host.mem) σ.host.mono
      (writer id data flag i).leaves pkt' = .append pkt'' → pkt''.stats.serialSize < 2 ^ 63)
    (hlow : 144 ≤ out.data) (hout : arenaSize σ.host.mem ≤ out.data) :
    ∃ C' q', Inv id data flag (σ.ended json mode (writer id data flag i).leaves out i pkt pkt') n C' q' := by
  obtain ⟨⟨text, wid, wall, rfl⟩, htodo, hnew⟩ := hi.pending i _ _ hp
  have hempty : empty ((lock mode).exec σ.host.mem) = C.isEmpty := (lock_committed mode hi.ready).empty_eq
  have hnil : ∀ pkt'', lockedPhase json mode ((lock mode).exec σ.host.mem) σ.host.mono
      (writer id data flag i).leaves (pkt.stampedEarly text wid wall) = .append pkt'' → C = [] ∧ q = 0 := by
    intro pkt'' ho
    have he := (append_of_locked ho).1
    rw [hempty, List.isEmpty_iff] at he
    exact ⟨he, by rw [← hi.count.1, he, List.length_nil]⟩
  obtain ⟨r, hr, hwriter, hpkt, hacquired, hreleased, hadded⟩ :=
    Fleet.ended_released i pkt hret
  have hready := Fleet.ended_ready i pkt hmode hi.ready hret rfl
    (fun pkt'' ho => by rw [(hnil pkt'' ho).2]; norm_num) hsize hlow hout
  -- what does not depend on whether the packet is appended
  have hrest : ∀ C' q', Ready (σ.ended json mode (writer id data flag i).leaves out i pkt
      (pkt.stampedEarly text wid wall)).host.mem n C' [] q' → C'.length = q' ∧ q' ≤ 1 →
      C.map Frame.entry ++ r.added = C'.map Frame.entry → (∀ e ∈ r.added, ∃ s : Stamp, e.2 = (pkt.stamped s).wire) →
      Inv id data flag (σ.ended json mode (writer id data flag i).leaves out i pkt
        (pkt.stampedEarly text wid wall)) n C' q' := by
    intro C' q' hr' hcount' hadded' hown'
    refine ⟨hr', hcount', ?_, ?_, ?_, fun j => ?_, fun j p p' hj => ?_⟩
    · rw [hr, List.flatMap_append, List.flatMap_singleton, hi.added, hadded']
    · rw [hr]
      intro r' hr' e he
      rcases List.mem_append.mp hr' with hr' | hr'
      · exact hi.own r' hr' e he
      · rw [List.mem_singleton.mp hr'] at he ⊢
        rw [hpkt]
        exact hown' e he
    · rw [hr]
      intro r' hr'
      rcases List.mem_append.mp hr' with hr' | hr'
      · exact hi.released r' hr'
      · rw [List.mem_singleton.mp hr']
        exact ⟨hacquired, hreleased⟩
    · by_cases hij : j = i
      · subst hij
        exact .inl htodo
      · rcases hi.once j with hj | ⟨p, hj, hnone, hother⟩
        · exact .inl hj
        · refine .inr ⟨p, hj, ?_, ?_⟩
          · simp only [Fleet.ended, Function.update_of_ne hij]
            exact hnone
          · rw [hr]
            intro r' hr'
            rcases List.mem_append.mp hr' with hr' | hr'
            · exact hother r' hr'
            · rw [List.mem_singleton.mp hr', hwriter]
              exact Ne.symm hij
    · by_cases hij : j = i
      · subst hij
        simp only [Fleet.ended, Function.update_self] at hj
        cases hj
      · simp only [Fleet.ended, Function.update_of_ne hij] at hj
        obtain ⟨hstamp, htodo', hother⟩ := hi.pending j p p' hj
        refine ⟨hstamp, htodo', ?_⟩
        rw [hr]
        intro r' hr'
        rcases List.mem_append.mp hr' with hr' | hr'
        · exact hother r' hr'
        · rw [List.mem_singleton.mp hr', hwriter]
          exact Ne.symm hij
  rcases hready with ⟨pkt'', f, ho, -, hseq, hdata, hr', hnewest⟩ | ⟨-, hr', hnone⟩
  · obtain ⟨rfl, rfl⟩ := hnil pkt'' ho
    obtain ⟨-, s, rfl⟩ := append_of_locked ho
    refine ⟨_, _, hrest _ _ hr' ?_ ?_ ?_⟩
    · exact ⟨rfl, le_rfl⟩
    · rw [hadded, hnewest]
      rfl
    · rw [hadded, hnewest]
      intro e he
      rw [List.mem_singleton.mp he]
      exact ⟨s, hdata⟩
  · refine ⟨C, q, hrest C q hr' hi.count ?_ ?_⟩
    · rw [hadded, hnone, List.append_nil]
    · rw [hadded, hnone]
      exact fun e he => absurd he List.not_mem_nil

/-- A step keeps the invariant, if the addresses of the flags are their own or not. -/
theorem Inv.step (hmode : mode ≠ .readonly) (hi : Inv id data flag σ n C q)
    (hstep : Fleet.Step json mode (writer id data flag) σ τ) : ∃ C' q', Inv id data flag τ n C' q' := by
  cases hstep with
  | ticks mono wall => exact ⟨C, q, hi.ready, hi.count, hi.added, hi.own, hi.released, hi.once, hi.pending⟩
  | begins i pkt pkt' rest h hnone htodo hp => exact ⟨C, q, hi.begun hnone htodo hp⟩
  | returns i pkt pkt' out hp hret hsize hlow hout => exact hi.ended hmode hp hret hsize hlow hout

/-- The flags of the calls that have returned. -/
def Flagged (flag : ι → ℕ) (σ : Fleet ι) : Prop :=
  ∀ r ∈ σ.returned, σ.host.heap (flag r.writer) = 1 ↔ r.added ≠ []

/-- The flag of a call that has room says whether its packet is appended. -/
theorem Flagged.step (hmode : mode ≠ .readonly) (hflag : Function.Injective flag)
    (hdata : ∀ i j, flag i ≠ data j) (hi : Inv id data flag σ n C q) (hf : Flagged flag σ)
    (hstep : (roomy json mode id data flag pkts).step σ τ) : Flagged flag τ := by
  obtain ⟨hstep, hroom⟩ := hstep
  cases hstep with
  | ticks => exact hf
  | begins i pkt pkt' rest h hnone htodo hp =>
    intro r hr
    rw [processPhase_eq] at hp
    cases hs : seqText (σ.host.heap (data i)) with
    | none =>
      rw [hs] at hp
      cases hp
    | some text =>
      rw [hs] at hp
      cases hp
      have hkeep : ((setHeap (data i) (wrap (σ.host.heap (data i) + 1))).exec σ.host).heap (flag r.writer) =
          σ.host.heap (flag r.writer) := if_neg (hdata r.writer i)
      simp only [Fleet.begun, hkeep]
      exact hf r hr
  | returns i pkt pkt' out hp hret hsize hlow hout =>
    obtain ⟨⟨text, wid, wall, rfl⟩, -, hnew⟩ := hi.pending i _ _ hp
    have hheap : (σ.ended json mode (writer id data flag i).leaves out i pkt
        (pkt.stampedEarly text wid wall)).host.heap = fun x =>
          if x = flag i then (empty ((lock mode).exec σ.host.mem)).toNat else σ.host.heap x := by
      have hhost := (Ledger.critical_released json mode out (writer id data flag i).leaves σ.host
        (pkt.stampedEarly text wid wall)).2.1
      simp only [Fleet.ended, hhost]
      exact critical_heap i
    obtain ⟨r, hr, hwriter, -, -, -, hadded⟩ := Fleet.ended_released i pkt hret
    intro r' hr'
    rw [hr] at hr'
    rw [hheap]
    rcases List.mem_append.mp hr' with hr' | hr'
    · have hne : flag r'.writer ≠ flag i := fun he => hnew r' hr' (hflag he)
      simp only [if_neg hne]
      exact hf r' hr'
    · rw [List.mem_singleton.mp hr', hwriter]
      simp only [if_true]
      have hnone : (σ.ended json mode (writer id data flag i).leaves out i pkt
          (pkt.stampedEarly text wid wall)).pending i = none := by
        simp only [Fleet.ended, Function.update_self]
      have hempty : empty ((lock mode).exec σ.host.mem) = C.isEmpty := (lock_committed mode hi.ready).empty_eq
      have hlocked : lockedPhase json mode ((lock mode).exec σ.host.mem) σ.host.mono
          (writer id data flag i).leaves (pkt.stampedEarly text wid wall) = _ := lockedPhase_eq i _ _ _
      have hready := Fleet.ended_ready i pkt hmode hi.ready hret rfl (fun pkt'' ho => by
        have he := (append_of_locked ho).1
        rw [hempty, List.isEmpty_iff] at he
        rw [← hi.count.1, he, List.length_nil]
        norm_num) hsize hlow hout
      rcases hready with ⟨pkt'', f, ho, -, -, -, -, hnewest⟩ | ⟨hno, -, hnothing⟩
      · rw [hadded, hnewest, (append_of_locked ho).1]
        simp
      · rw [hadded, hnothing]
        cases he : empty ((lock mode).exec σ.host.mem) with
        | false => simp
        | true =>
          rw [he, if_pos rfl] at hlocked
          cases hs : seqText (workingState ((lock mode).exec σ.host.mem)).seqHigh with
          | none =>
            rw [hs] at hlocked
            exact absurd hlocked (Fleet.lockedPhase_ne_stuck hret)
          | some t =>
            rw [hs] at hlocked
            have hfits := hroom i _ _ hp hnone he t hs
            have hlarge := hno _ hlocked
            rw [hi.ready.arenaSize_eq] at hfits
            omega

theorem isInvariant (hmode : mode ≠ .readonly) :
    (runs json mode id data flag pkts).IsInvariant fun σ => ∃ n C q, Inv id data flag σ n C q where
  init := by
    rintro σ ⟨⟨n, hn, hmem⟩, htodo, hpending, hreturned⟩
    have hr : Ready σ.host.mem n [] [] 0 := by
      rw [hmem]
      exact reached_init mode hn
    refine ⟨n, [], 0, hr, ⟨rfl, Nat.zero_le 1⟩, ?_, ?_, ?_, ?_, ?_⟩
    · rw [hreturned]
      rfl
    · rw [hreturned]
      exact fun r hr => absurd hr List.not_mem_nil
    · rw [hreturned]
      exact fun r hr => absurd hr List.not_mem_nil
    · intro i
      rw [htodo, hreturned]
      exact .inr ⟨pkts i, rfl, hpending i, fun r hr => absurd hr List.not_mem_nil⟩
    · intro i pkt pkt' hp
      rw [hpending i] at hp
      cases hp
  step := by
    rintro σ τ ⟨n, C, q, hi⟩ hstep
    obtain ⟨C', q', hi'⟩ := hi.step hmode hstep
    exact ⟨n, C', q', hi'⟩

/-- **One writer is elected**, in every state that any run of any number of calls reaches
in which each packet that gets the lock of an empty topic has room: one packet is appended
at most, each flag is set if and only if the packet of its call is appended, and each call
has taken the lock once and released it once. -/
theorem elected (hmode : mode ≠ .readonly) (hflag : Function.Injective flag) (hdata : ∀ i j, flag i ≠ data j)
    (hσ : (roomy json mode id data flag pkts).Reach σ) : Elected flag σ := by
  have hrun : ∀ σ, (roomy json mode id data flag pkts).Reach σ → (runs json mode id data flag pkts).Reach σ :=
    fun σ hσ => TransitionSystem.reach_mono (S := roomy json mode id data flag pkts) (fun _ h => h)
      (fun _ _ h => h.1) hσ
  have hf : Flagged flag σ := by
    induction hσ with
    | init h =>
      obtain ⟨-, -, -, hreturned⟩ := h
      rw [Flagged, hreturned]
      exact fun r hr => absurd hr List.not_mem_nil
    | step hs hstep ih =>
      obtain ⟨n, C, q, hi⟩ := (isInvariant hmode).reach (hrun _ hs)
      exact ih.step hmode hflag hdata hi hstep
  obtain ⟨n, C, q, hi⟩ := (isInvariant hmode).reach (hrun σ hσ)
  refine ⟨?_, hi.own, hf, hi.released⟩
  rw [hi.added, List.length_map, hi.count.1]
  exact hi.count.2

end Steps

/-! ### One call -/

/-- A call with this payload on a new topic of 1000 bytes. -/
def called (payload : List UInt8) : Fleet Unit := ⟨fresh, fun _ => [bare payload], fun _ => none, []⟩

/-- The writer of the call. -/
def caller : Unit → Build Provided := writer (fun _ => .ofString "w") (fun _ => 0) (fun _ => 1)

/-- What the call has at the lock. -/
def prepared (payload : List UInt8) : Packet :=
  (bare payload).stampedEarly (.ofString "0") (.ofString "w") (.ofString "0")

/-- The call at the lock. -/
def waiting (payload : List UInt8) : Fleet Unit :=
  (called payload).begun () (bare payload) (prepared payload) [] ((setHeap 0 1).exec fresh)

/-- The call has returned. -/
def concluded (payload : List UInt8) : Fleet Unit :=
  (waiting payload).ended noJson .shared (caller ()).leaves ⟨5000, 0⟩ () (bare payload) (prepared payload)

section Examples

variable {payload : List UInt8}

theorem seqText_zero : seqText 0 = some (.ofString "0") := by decide +kernel

theorem waiting_mem : (waiting payload).host.mem = fresh.mem := rfl

theorem waiting_ready (payload : List UInt8) : Ready (waiting payload).host.mem 1000 [] [] 0 := by
  rw [waiting_mem]
  exact fresh_ready

/-- The packet is to be appended. -/
theorem waiting_locked : lockedPhase noJson .shared ((lock .shared).exec (waiting payload).host.mem)
    (waiting payload).host.mono (caller ()).leaves (prepared payload) =
      .append ((prepared payload).stampedLate (.ofString "0") (.ofString "0")) := by
  have hlock := lock_committed .shared (waiting_ready payload)
  have hempty : empty ((lock .shared).exec (waiting payload).host.mem) = true := hlock.empty_eq
  have hhigh : (workingState ((lock .shared).exec (waiting payload).host.mem)).seqHigh = 0 := hlock.seqHigh_eq
  rw [caller, lockedPhase_eq, hempty, if_pos rfl, hhigh, seqText_zero]
  rfl

/-- What is appended, but for its payload. -/
theorem serialSize_prepared (payload : List UInt8) :
    ((prepared payload).stampedLate (.ofString "0") (.ofString "0")).stats.serialSize =
    ((prepared []).stampedLate (.ofString "0") (.ofString "0")).stats.serialSize + payload.length := by
  rw [Packet.stats_serialSize, Packet.stats_serialSize]
  rfl

theorem serialSize_prepared_nil :
    ((prepared []).stampedLate (.ofString "0") (.ofString "0")).stats.serialSize = 213 := by decide +kernel

/-- The call returns. -/
theorem waiting_returns (hlen : payload.length < 2 ^ 62) :
    ((Ledger.locking .shared).critical noJson .shared ⟨5000, 0⟩ (caller ()).leaves (prepared payload)).eval
      ⟨(waiting payload).host, 0, 0⟩ ≠ none ∧
    ∀ pkt, lockedPhase noJson .shared ((lock .shared).exec (waiting payload).host.mem)
      (waiting payload).host.mono (caller ()).leaves (prepared payload) = .append pkt →
      pkt.stats.serialSize < 2 ^ 63 := by
  have hsize : ∀ pkt, lockedPhase noJson .shared ((lock .shared).exec (waiting payload).host.mem)
      (waiting payload).host.mono (caller ()).leaves (prepared payload) = .append pkt →
      pkt.stats.serialSize < 2 ^ 63 := by
    rw [waiting_locked]
    rintro _ ⟨⟩
    rw [serialSize_prepared, serialSize_prepared_nil]
    omega
  refine ⟨critical_returns _ (by decide) (waiting_ready payload) (by norm_num) ?_ hsize, hsize⟩
  rw [waiting_locked]
  exact fun h => Outcome.noConfusion h

/-- The arena is as large as the buffer is far away. -/
theorem waiting_size : arenaSize (waiting payload).host.mem = 1000 := (waiting_ready payload).arenaSize_eq

theorem called_begins : Fleet.Step noJson .shared caller (called payload) (waiting payload) := by
  refine .begins () (bare payload) (prepared payload) [] ((setHeap 0 1).exec fresh) rfl rfl ?_
  have hheap : (called payload).host.heap 0 = 0 := rfl
  rw [caller, processPhase_eq, hheap, seqText_zero]
  rfl

theorem waiting_ends (hlen : payload.length < 2 ^ 62) :
    Fleet.Step noJson .shared caller (waiting payload) (concluded payload) := by
  obtain ⟨hret, hsize⟩ := waiting_returns hlen
  refine .returns () (bare payload) (prepared payload) ⟨5000, 0⟩ rfl hret hsize (by norm_num) ?_
  rw [waiting_size]
  norm_num

theorem called_init : (runs noJson .shared (fun _ => .ofString "w") (fun _ => 0) (fun _ => 1)
    fun _ => bare payload).init (called payload) :=
  ⟨⟨1000, by norm_num, fresh_mem⟩, rfl, fun _ => rfl, rfl⟩

theorem concluded_reach (hlen : payload.length < 2 ^ 62) : (runs noJson .shared (fun _ => .ofString "w") (fun _ => 0)
    (fun _ => 1) fun _ => bare payload).Reach (concluded payload) :=
  .step (.step (.init called_init) called_begins) (waiting_ends hlen)

end Examples

/-- The flag of a packet of 1000 bytes is set, though it does not fit into the arena of 1000
bytes and is not appended. -/
theorem not_elected : ¬ ∀ σ, (runs noJson .shared (fun _ => .ofString "w") (fun _ => 0) (fun _ => 1)
    fun _ : Unit => bare (List.replicate 1000 0)).Reach σ → Elected (fun _ => 1) σ := by
  intro hall
  have hlen : (List.replicate 1000 (0 : UInt8)).length < 2 ^ 62 := by
    rw [List.length_replicate]
    norm_num
  obtain ⟨hret, hsize⟩ := waiting_returns hlen
  have helected := hall _ (concluded_reach hlen)
  have hheap : (concluded (List.replicate 1000 0)).host.heap 1 = 1 := by
    have hhost := (Ledger.critical_released noJson .shared ⟨5000, 0⟩ (caller ()).leaves
      (waiting (List.replicate 1000 0)).host (prepared (List.replicate 1000 0))).2.1
    have hempty := (lock_committed .shared (waiting_ready (List.replicate 1000 0))).empty_eq
    simp only [concluded, Fleet.ended, hhost]
    rw [caller, critical_heap, hempty]
    rfl
  obtain ⟨r, hr, hwriter, -, -, -, hadded⟩ := Fleet.ended_released () (bare (List.replicate 1000 0)) hret
  have hmem : r ∈ (concluded (List.replicate 1000 0)).returned := by
    rw [concluded, hr]
    exact List.mem_append_right _ (List.mem_singleton_self r)
  have hne := (helected.flag r hmem).mp hheap
  have hready := Fleet.ended_ready () (bare (List.replicate 1000 0)) (by decide) (waiting_ready _) hret rfl
    (fun _ _ => by norm_num) hsize (by norm_num) (by rw [waiting_size]; norm_num)
  rcases hready with ⟨pkt', f, ho, hfit, -⟩ | ⟨-, -, hnothing⟩
  · rw [waiting_locked] at ho
    cases ho
    rw [serialSize_prepared, serialSize_prepared_nil, List.length_replicate] at hfit
    omega
  · exact hne (hadded.trans hnothing)

/-- One byte is written. -/
theorem elected_small : ∃ σ, (roomy noJson .shared (fun _ => .ofString "w") (fun _ => 0) (fun _ => 1)
    fun _ : Unit => bare [7]).Reach σ ∧ σ.returned.length = 1 ∧ Elected (fun _ => 1) σ := by
  have hσ : (roomy noJson .shared (fun _ => .ofString "w") (fun _ => 0) (fun _ => 1)
      fun _ : Unit => bare [7]).Reach (concluded [7]) := by
    refine .step (.step (.init called_init) ⟨called_begins, ?_⟩) ⟨waiting_ends (by norm_num), ?_⟩
    · intro i pkt pkt' hp
      cases hp
    · intro i pkt pkt' hp _ _ text htext
      have hpkt : pkt' = prepared [7] := by
        simp only [waiting, Fleet.begun, Function.update_self, Option.some.injEq, Prod.mk.injEq] at hp
        exact hp.2.symm
      rw [(lock_committed .shared (waiting_ready [7])).seqHigh_eq, List.length_nil, Nat.add_zero,
        seqText_zero, Option.some.injEq] at htext
      subst hpkt htext
      rw [waiting_size]
      have hsize := serialSize_prepared [7]
      rw [serialSize_prepared_nil] at hsize
      have hmono : (waiting [7]).host.mono = .ofString "0" := rfl
      rw [hmono, hsize]
      norm_num
  exact ⟨_, hσ, rfl, elected (by decide) (fun _ _ _ => rfl) (fun _ _ => by decide) hσ⟩

end Election

end AlephZero
