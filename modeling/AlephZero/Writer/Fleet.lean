import AlephZero.Machine.Runs
import AlephZero.Writer.Locking

/-!
# Several writers on one arena

Any number of writers, in any processes, each of which writes the packets of its program
one after the other. A write has two parts: up to the lock (`processPhase`, by
`chainOf_process`), and from the lock on (`Locking.critical`), which is one critical
section. Between the parts of one write there may be any parts of others.

## The model

A `Fleet` is the host, what each writer has still to write, the packets that have got to
the lock, and the writes that have returned, each with what it has added to the log and how
often it has taken and released the lock. The clocks go on at any time. A packet that does
not fit is stored to where a pointer points that has not been set; that is not in the arena.

## What is proved

* `critical_eq` — what a critical section does depends on what becomes of the packet.
* `returns_ready` — a write appends its packet, if it fits, and else leaves the frames.
* `added_appended`, `added_kept` — what is added to the log.
-/

namespace AlephZero

open ByteMem StoreProg Prog Transport

variable {Val ι : Type} {json : Yyjson Val} {mode : ArenaMode} {out : Buf} {h : Host} {pkt pkt' : Packet}
  {m : Mem} {n q : ℕ} {C : List Frame}

/-! ### Critical sections -/

/-- What a critical section does depends on what becomes of the packet. -/
theorem critical_eq (json : Yyjson Val) (mode : ArenaMode) (out : Buf) (ls : List Provided) (h : Host)
    (pkt : Packet) :
    let o := lockedPhase json mode ((lock mode).exec h.mem) h.mono ls pkt
    let p := writeActionProcessLocked mode out
    let run := (Locking.host mode).critical json mode out ls pkt
    run.eval h = o.eval p ((lock mode).exec h.mem) ∧
      (run.exec h).mem = o.exec mode p ((lock mode).exec h.mem) := by
  have hleaves : ls.map ((Locking.host mode).leaf json mode) = ls.map (Provided.leaf json mode) :=
    List.map_congr_left fun l _ => Locking.leaf_host json mode l
  have haction : ((Locking.host mode).writeAction mode out).processLocked =
      fun pkt => onArena (writeActionProcessLocked mode out pkt) :=
    funext (Locking.writeAction_host mode out)
  intro o p run
  simp only [run, Locking.critical, hleaves, haction]
  exact chainOf_locked json mode p ls ((onArena (lock mode)).exec h) pkt

/-- A packet that does not fit is stored behind the arena. -/
theorem refused_ready {e : Err} (hr : (Transport.alloc mode pkt.stats.serialSize).eval m = some (.error e))
    (hsame : (Transport.alloc mode pkt.stats.serialSize).exec m = m) (h : Ready m n C [] q)
    (hlow : 144 ≤ out.data) (hout : n ≤ out.data) :
    Ready ((writeActionProcessLocked mode out pkt).exec m) n C [] q := by
  have halloc : (allocatorImpl mode pkt.stats.serialSize).eval m = some (.error e) := by
    simp only [allocatorImpl, eval_bind, hr, eval_pure]
  have hexec : (allocatorImpl mode pkt.stats.serialSize).exec m = m := by
    simp only [allocatorImpl, exec_bind, hr, exec_pure, hsame]
  have hstored := (post_of_wpc (pkt.serializeTo_wpc out.data (m := m))).1
  have hcommit := post_of_wpc (commit_ready (h.beyond hstored hlow hout))
  rw [List.append_nil] at hcommit
  simp only [writeActionProcessLocked, Packet.serialize, exec_bind, eval_bind, halloc, hexec, eval_pure, exec_pure]
  exact unlock_committed mode hcommit

/-- The packet that is to be appended, if there is one, fits. -/
def FitsIn (n : ℕ) : Outcome → Prop
  | .append pkt => 184 + pkt.stats.serialSize ≤ n
  | _ => True

/-- What a critical section that returns does to the frames. -/
theorem critical_ready {ls : List Provided} {o : Outcome} (hmode : mode ≠ .readonly) (h₀ : Ready h.mem n C [] q)
    (ho : o = lockedPhase json mode ((lock mode).exec h.mem) h.mono ls pkt)
    (hq : ∀ pkt', o = .append pkt' → q + 2 < 2 ^ 64)
    (hsize : ∀ pkt', o = .append pkt' → pkt'.stats.serialSize < 2 ^ 63) (hlow : 144 ≤ out.data)
    (hout : n ≤ out.data) (hret : ((Locking.host mode).critical json mode out ls pkt).eval h ≠ none) :
    (∃ pkt' f, o = .append pkt' ∧ 184 + pkt'.stats.serialSize ≤ n ∧ f.seq = q + 1 ∧ f.data = pkt'.wire ∧
      Ready (((Locking.host mode).critical json mode out ls pkt).exec h).mem n
        (kept n pkt'.stats.serialSize C ++ [f]) [] (q + 1)) ∨
    (∀ pkt', o = .append pkt' → n < 184 + pkt'.stats.serialSize) ∧
      Ready (((Locking.host mode).critical json mode out ls pkt).exec h).mem n C [] q := by
  obtain ⟨heval, hexec⟩ := critical_eq json mode out ls h pkt
  rw [← ho] at heval hexec
  rw [heval] at hret
  rw [hexec]
  have hlock := lock_committed mode h₀
  cases o with
  | stuck => exact absurd rfl hret
  | declined | failed =>
    right
    exact ⟨fun _ he => (by cases he), unlock_committed mode hlock⟩
  | append pkt' =>
    have hq' : q + ([] : List Frame).length + 2 < 2 ^ 64 := hq pkt' rfl
    by_cases hfit : 184 + pkt'.stats.serialSize ≤ n
    · left
      obtain ⟨-, f, hseq, hdata, hready⟩ := append_packet out hmode hlock hq' (hsize pkt' rfl) hfit
      rw [List.append_nil] at hready
      exact ⟨pkt', f, rfl, hfit, hseq, hdata, hready⟩
    · right
      refine ⟨fun _ he => (by cases he; omega), ?_⟩
      rcases post_of_wpc (alloc_ready hmode hlock hq' (hsize pkt' rfl)) with ⟨-, hr, hsame⟩ | ⟨hle, -⟩
      · exact refused_ready hr hsame hlock hlow hout
      · exact absurd hle hfit

/-- A critical section in which the packet comes to something returns. -/
theorem critical_returns {ls : List Provided} (out : Buf) (hmode : mode ≠ .readonly) (h₀ : Ready h.mem n C [] q)
    (hq : q + 2 < 2 ^ 64) (hne : lockedPhase json mode ((lock mode).exec h.mem) h.mono ls pkt ≠ .stuck)
    (hsize : ∀ pkt', lockedPhase json mode ((lock mode).exec h.mem) h.mono ls pkt = .append pkt' →
      pkt'.stats.serialSize < 2 ^ 63) :
    ((Ledger.locking mode).critical json mode out ls pkt).eval ⟨h, 0, 0⟩ ≠ none := by
  rw [(Ledger.critical_released json mode out ls h pkt).1, (critical_eq json mode out ls h pkt).1]
  have hlock := lock_committed mode h₀
  have hq' : q + ([] : List Frame).length + 2 < 2 ^ 64 := hq
  cases ho : lockedPhase json mode ((lock mode).exec h.mem) h.mono ls pkt with
  | stuck => exact absurd ho hne
  | declined | failed => exact Option.some_ne_none _
  | append pkt' =>
    have hok : (writeActionProcessLocked mode out pkt').eval ((lock mode).exec h.mem) = .ok := by
      by_cases hfit : 184 + pkt'.stats.serialSize ≤ n
      · exact (append_packet out hmode hlock hq' (hsize pkt' ho) hfit).1
      · obtain ⟨e, he⟩ := alloc_refuses hlock hq' (hsize pkt' ho) fun h => hfit h.2
        exact append_refused he
    rw [Outcome.eval, hok]
    exact Option.some_ne_none _

/-! ### The log -/

/-- What has been added to the log between two states of the arena. -/
def added (mode : ArenaMode) (m m' : Mem) : List (ℕ × List UInt8) :=
  (seenLog mode m').filter fun e => (seen mode m).seqHigh < e.1

theorem Transport.Ready.seen_eq (h : Ready m n C [] q) (mode : ArenaMode) :
    seenLog mode m = C.map Frame.entry ∧ (seen mode m).seqHigh = q := by
  have hs : seenLog mode m = _ ∧ (seen mode m).seqHigh = _ := seenLog_eq h
  rwa [unlocked_nil, List.append_nil, List.length_nil, Nat.add_zero] at hs

theorem Transport.Ready.filter_entries (h : Ready m n C [] q) :
    (C.map Frame.entry).filter (fun e => q < e.1) = [] := by
  rw [List.filter_eq_nil_iff]
  intro e he hlt
  obtain ⟨f, hf, rfl⟩ := List.mem_map.mp he
  have hle : f.seq ≤ q := h.seq_le (List.mem_append_left [] hf)
  exact absurd (of_decide_eq_true hlt) (not_lt.mpr hle)

/-- An appended frame is added. -/
theorem added_appended {m' : Mem} {k : ℕ} {f : Frame} (h : Ready m n C [] q)
    (h' : Ready m' n (C.drop k ++ [f]) [] (q + 1)) (hf : f.seq = q + 1) : added mode m m' = [f.entry] := by
  have hold : ((C.drop k).map Frame.entry).filter (fun e => q < e.1) = [] := by
    have hall := h.filter_entries
    rw [List.filter_eq_nil_iff] at hall ⊢
    intro e he
    exact hall e (List.map_subset _ (List.drop_subset k C) he)
  rw [added, (h'.seen_eq mode).1, (h.seen_eq mode).2, List.map_append, List.filter_append, hold]
  simp [Frame.entry, hf]

/-- Otherwise nothing is. -/
theorem added_kept {m' : Mem} (h : Ready m n C [] q) (h' : Ready m' n C [] q) : added mode m m' = [] := by
  rw [added, (h'.seen_eq mode).1, (h.seen_eq mode).2, h.filter_entries]

/-! ### Runs -/

/-- A write that has returned. -/
structure Returned (ι : Type) where
  writer : ι
  pkt : Packet
  status : Status
  /-- How often the lock has been taken, and released. -/
  acquired : ℕ
  released : ℕ
  /-- What has been added to the log. -/
  added : List (ℕ × List UInt8)

/-- Several writers and their arena. -/
structure Fleet (ι : Type) where
  host : Host
  /-- What each writer has still to write. -/
  todo : ι → List Packet
  /-- The packet with which a write in progress has been called, and what the middleware has
  made of it before the lock. -/
  pending : ι → Option (Packet × Packet)
  /-- The writes that have returned, in order. -/
  returned : List (Returned ι)

namespace Fleet

/-- The entries that have been appended, in commit order. -/
def committed (σ : Fleet ι) : List (ℕ × List UInt8) := σ.returned.flatMap Returned.added

theorem committed_returned {σ τ : Fleet ι} {r : Returned ι} (h : τ.returned = σ.returned ++ [r]) :
    τ.committed = σ.committed ++ r.added := by
  rw [committed, h, List.flatMap_append, List.flatMap_singleton, committed]

variable [DecidableEq ι]

/-- A write has got to the lock. -/
def begun (σ : Fleet ι) (i : ι) (pkt pkt' : Packet) (rest : List Packet) (h : Host) : Fleet ι where
  host := h
  todo := Function.update σ.todo i rest
  pending := Function.update σ.pending i (some (pkt, pkt'))
  returned := σ.returned

/-- A write has returned. -/
def ended (json : Yyjson Val) (mode : ArenaMode) (ls : List Provided) (out : Buf) (σ : Fleet ι) (i : ι)
    (pkt pkt' : Packet) : Fleet ι :=
  let p := (Ledger.locking mode).critical json mode out ls pkt'
  let s := p.exec ⟨σ.host, 0, 0⟩
  { host := s.host
    todo := σ.todo
    pending := Function.update σ.pending i none
    returned := σ.returned ++
      [⟨i, pkt, p.eval ⟨σ.host, 0, 0⟩, s.acquired, s.released, added mode σ.host.mem s.host.mem⟩] }

/-- A step of the clocks, or of one of the writers, which are built as `writer` says. -/
inductive Step (json : Yyjson Val) (mode : ArenaMode) (writer : ι → Build Provided) (σ : Fleet ι) : Fleet ι → Prop where
  | ticks (mono wall : CString) : Step json mode writer σ { σ with host := { σ.host with mono := mono, wall := wall } }
  /-- A write up to the lock. -/
  | begins (i : ι) (pkt pkt' : Packet) (rest : List Packet) (h : Host) : σ.pending i = none →
    σ.todo i = pkt :: rest → processPhase (writer i).leaves σ.host pkt = some (pkt', h) →
    Step json mode writer σ (σ.begun i pkt pkt' rest h)
  /-- A write from the lock on. Sizes are those of objects. -/
  | returns (i : ι) (pkt pkt' : Packet) (out : Buf) : σ.pending i = some (pkt, pkt') →
    ((Ledger.locking mode).critical json mode out (writer i).leaves pkt').eval ⟨σ.host, 0, 0⟩ ≠ none →
    (∀ pkt'', lockedPhase json mode ((lock mode).exec σ.host.mem) σ.host.mono (writer i).leaves pkt' =
      .append pkt'' → pkt''.stats.serialSize < 2 ^ 63) →
    144 ≤ out.data → arenaSize σ.host.mem ≤ out.data →
    Step json mode writer σ (σ.ended json mode (writer i).leaves out i pkt pkt')

/-- The packet that a step is to append fits. -/
def Fitting (json : Yyjson Val) (mode : ArenaMode) (writer : ι → Build Provided) (σ τ : Fleet ι) : Prop :=
  ∀ i pkt pkt' pkt'', σ.pending i = some (pkt, pkt') → τ.pending i = none →
    lockedPhase json mode ((lock mode).exec σ.host.mem) σ.host.mono (writer i).leaves pkt' = .append pkt'' →
    184 + pkt''.stats.serialSize ≤ arenaSize σ.host.mem

/-- Any interleaving of any writers, on an arena that was all zero. -/
def runs (json : Yyjson Val) (mode : ArenaMode) (writer : ι → Build Provided) (program : ι → List Packet) :
    TransitionSystem (Fleet ι) where
  init σ := (∃ n < 2 ^ 62, σ.host.mem = reached mode [.init n]) ∧ σ.todo = program ∧
    (∀ i, σ.pending i = none) ∧ σ.returned = []
  step := Step json mode writer

variable {σ τ : Fleet ι} {writer : ι → Build Provided} {program : ι → List Packet} {i : ι} {ls : List Provided}

/-- What the last write has done to the frames and to the log. -/
theorem ended_ready {o : Outcome} (i : ι) (pkt : Packet) (hmode : mode ≠ .readonly) (h : Ready σ.host.mem n C [] q)
    (hret : ((Ledger.locking mode).critical json mode out ls pkt').eval ⟨σ.host, 0, 0⟩ ≠ none)
    (ho : o = lockedPhase json mode ((lock mode).exec σ.host.mem) σ.host.mono ls pkt')
    (hq : ∀ pkt'', o = .append pkt'' → q + 2 < 2 ^ 64)
    (hsize : ∀ pkt'', o = .append pkt'' → pkt''.stats.serialSize < 2 ^ 63)
    (hlow : 144 ≤ out.data) (hout : arenaSize σ.host.mem ≤ out.data) :
    (∃ pkt'' f, o = .append pkt'' ∧ 184 + pkt''.stats.serialSize ≤ n ∧ f.seq = q + 1 ∧ f.data = pkt''.wire ∧
      Ready (σ.ended json mode ls out i pkt pkt').host.mem n (kept n pkt''.stats.serialSize C ++ [f]) [] (q + 1) ∧
      added mode σ.host.mem (σ.ended json mode ls out i pkt pkt').host.mem = [f.entry]) ∨
    (∀ pkt'', o = .append pkt'' → n < 184 + pkt''.stats.serialSize) ∧
      Ready (σ.ended json mode ls out i pkt pkt').host.mem n C [] q ∧
      added mode σ.host.mem (σ.ended json mode ls out i pkt pkt').host.mem = [] := by
  obtain ⟨heval, hhost, -, -⟩ := Ledger.critical_released json mode out ls σ.host pkt'
  rw [heval] at hret
  rw [h.arenaSize_eq] at hout
  simp only [ended, hhost]
  rcases critical_ready hmode h ho hq hsize hlow hout hret with ⟨pkt'', f, hap, hfit, hseq, hdata, hr⟩ | ⟨hno, hr⟩
  · left
    exact ⟨pkt'', f, hap, hfit, hseq, hdata, hr, added_appended h hr hseq⟩
  · right
    exact ⟨hno, hr, added_kept h hr⟩

omit [DecidableEq ι] in
/-- A write that returns has come to something. -/
theorem lockedPhase_ne_stuck
    (hret : ((Ledger.locking mode).critical json mode out ls pkt').eval ⟨σ.host, 0, 0⟩ ≠ none) :
    lockedPhase json mode ((lock mode).exec σ.host.mem) σ.host.mono ls pkt' ≠ .stuck := by
  intro ho
  have heval := (critical_eq json mode out ls σ.host pkt').1
  rw [ho] at heval
  exact hret ((Ledger.critical_released json mode out ls σ.host pkt').1.trans heval)

/-- What the last write has returned. -/
theorem ended_status (json : Yyjson Val) (mode : ArenaMode) (ls : List Provided) (out : Buf) (σ : Fleet ι) (i : ι)
    (pkt pkt' : Packet) :
    ∃ r : Returned ι, (σ.ended json mode ls out i pkt pkt').returned = σ.returned ++ [r] ∧ r.writer = i ∧ r.pkt = pkt ∧
      r.status = (lockedPhase json mode ((lock mode).exec σ.host.mem) σ.host.mono ls pkt').eval
        (writeActionProcessLocked mode out) ((lock mode).exec σ.host.mem) ∧
      r.added = added mode σ.host.mem (σ.ended json mode ls out i pkt pkt').host.mem := by
  obtain ⟨heval, -, -, -⟩ := Ledger.critical_released json mode out ls σ.host pkt'
  exact ⟨_, rfl, rfl, rfl, heval.trans (critical_eq json mode out ls σ.host pkt').1, rfl⟩

/-- The lock has been taken once and released once. -/
theorem ended_released (i : ι) (pkt : Packet)
    (hret : ((Ledger.locking mode).critical json mode out ls pkt').eval ⟨σ.host, 0, 0⟩ ≠ none) :
    ∃ r : Returned ι, (σ.ended json mode ls out i pkt pkt').returned = σ.returned ++ [r] ∧ r.writer = i ∧
      r.pkt = pkt ∧ r.acquired = 1 ∧ r.released = 1 ∧
      r.added = added mode σ.host.mem (σ.ended json mode ls out i pkt pkt').host.mem := by
  obtain ⟨-, -, hacquired, hreleased⟩ := Ledger.critical_released json mode out ls σ.host pkt'
  exact ⟨_, rfl, rfl, rfl, hacquired, hreleased hret, rfl⟩

end Fleet

end AlephZero
