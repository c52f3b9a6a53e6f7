import AlephZero.Packet.Codec
import AlephZero.Transport.Pointer
import AlephZero.Transport.Refinement
import AlephZero.Writer.Basic

/-!
# When a write is all or nothing

A write by a writer that is built of the middleware that comes with the library, in any
mode and on any arena that calls can reach.

## The model

`processPhase` and `lockedPhase` say what the middleware makes of a packet, before the
lock and under it (`Outcome`): it is appended, or declined, or there is an error. The log
that a write works on is that of the page it sees once it has the lock (`seen`).

## What is proved

* `chainOf_process`, `chainOf_locked` — what the middleware does.
* `append_packet`, `append_refused` — what the write action does with a packet that fits,
  and that it returns A0_OK in any case.
* `not_allOrNothing` — a packet that does not fit is written nowhere, and A0_OK returned.
* **`allOrNothing_iff`** — a write is all or nothing if and only if the packet that is to
  be appended, if there is one, fits into the arena, and the arena may be written to.
-/

namespace AlephZero

open ByteMem StoreProg Prog Transport

variable {Val : Type} {json : Yyjson Val} {mode : ArenaMode} {out : Buf} {h h' : Host} {pkt pkt' : Packet}
  {m t : Mem} {n q : ℕ} {C X : List Frame}

/-! ### What middleware makes of a packet -/

/-- What becomes of a packet under the lock. -/
inductive Outcome where
  | append (pkt : Packet)
  | declined
  | failed (e : Err)
  /-- There is no result. -/
  | stuck

/-- What middleware does before the lock: the packet, and the user data. -/
def processPhase : List Provided → Host → Packet → Option (Packet × Host)
  | [], h, pkt => some (pkt, h)
  | .timeWall :: ls, h, pkt => processPhase ls h (pkt.addHeader "a0_time_wall" h.wall)
  | .writerId id :: ls, h, pkt => processPhase ls h (pkt.addHeader "a0_writer_id" id)
  | .writerSeq data :: ls, h, pkt =>
    match seqText (h.heap data) with
    | none => none
    | some text => processPhase ls ((setHeap data (wrap (h.heap data + 1))).exec h)
      (pkt.addHeader "a0_writer_seq" text)
  | _ :: ls, h, pkt => processPhase ls h pkt

/-- What middleware does under the lock; `mono` is the mono time. -/
def lockedPhase (json : Yyjson Val) (mode : ArenaMode) (m : Mem) (mono : CString) :
    List Provided → Packet → Outcome
  | [], pkt => .append pkt
  | .timeMono :: ls, pkt => lockedPhase json mode m mono ls (pkt.addHeader "a0_time_mono" mono)
  | .transportSeq :: ls, pkt =>
    match seqText (workingState m).seqHigh with
    | none => .stuck
    | some text => lockedPhase json mode m mono ls (pkt.addHeader "a0_transport_seq" text)
  | .writeIfEmpty _ :: ls, pkt => if empty m then lockedPhase json mode m mono ls pkt else .declined
  | .jsonMergepatch :: ls, pkt =>
    if empty m then lockedPhase json mode m mono ls pkt
    else match newestPacket m { arena := ⟨0, mode⟩ } with
      | none => .stuck
      | some fpkt =>
        let buf := flatPacketPayload m fpkt
        match mergePayload json (m.loadBytes buf.data buf.size) pkt.payload with
        | .error e => .failed e
        | .ok payload => lockedPhase json mode m mono ls { pkt with payload := payload }
  | _ :: ls, pkt => lockedPhase json mode m mono ls pkt

/-- What becomes of a packet. -/
def outcome (json : Yyjson Val) (mode : ArenaMode) (ls : List Provided) (h : Host) (pkt : Packet) : Outcome :=
  match processPhase ls h pkt with
  | none => .stuck
  | some (pkt, h) => lockedPhase json mode ((lock mode).exec h.mem) h.mono ls pkt

/-- The log that a write works on. -/
def seenLog (mode : ArenaMode) (m : Mem) : List (ℕ × List UInt8) := logOf m (seen mode m)

/-! ### The phases -/

@[simp] theorem eval_onArena {α : Type} {p : Prog Mem α} : (onArena p).eval h = p.eval h.mem := rfl

@[simp] theorem exec_onArena {α : Type} {p : Prog Mem α} :
    (onArena p).exec h = { h with mem := p.exec h.mem } := rfl

theorem setHeap_mem (a v : ℕ) : ((setHeap a v).exec h).mem = h.mem := rfl

theorem processPhase_mem {ls : List Provided} (hp : processPhase ls h pkt = some (pkt', h')) :
    h'.mem = h.mem := by
  induction ls generalizing h pkt with
  | nil => cases hp; rfl
  | cons l ls ih =>
    cases l with
    | writerSeq data =>
      simp only [processPhase] at hp
      cases hs : seqText (h.heap data) with
      | none => rw [hs] at hp; cases hp
      | some text =>
        rw [hs] at hp
        exact (ih hp :)
    | timeMono | timeWall | writerId | transportSeq | writeIfEmpty | jsonMergepatch => exact ih hp

/-- The middleware without the lock. -/
theorem chainOf_process (json : Yyjson Val) (mode : ArenaMode) (k : Packet → Prog Host Status) (ls : List Provided)
    (h : Host) (pkt : Packet) :
    match processPhase ls h pkt with
    | none => (chainOf false k (ls.map (Provided.leaf json mode)) pkt).eval h = none
    | some (pkt', h') =>
      (chainOf false k (ls.map (Provided.leaf json mode)) pkt).eval h = (k pkt').eval h' ∧
      (chainOf false k (ls.map (Provided.leaf json mode)) pkt).exec h = (k pkt').exec h' := by
  induction ls generalizing h pkt with
  | nil => exact ⟨rfl, rfl⟩
  | cons l ls ih =>
    cases l with
    | timeWall => exact ih h (pkt.addHeader "a0_time_wall" h.wall)
    | writerId id => exact ih h (pkt.addHeader "a0_writer_id" id)
    | timeMono | transportSeq | writeIfEmpty | jsonMergepatch => exact ih h pkt
    | writerSeq data =>
      cases hs : seqText (h.heap data) with
      | none =>
        simp only [processPhase, hs, List.map_cons, chainOf, Provided.leaf, addWriterSeqHeader, Leaf.fn,
          Bool.false_eq_true, if_false, eval_bind, eval_read, exec_read, eval_pure]
      | some text =>
        simp only [processPhase, hs, List.map_cons, chainOf, Provided.leaf, addWriterSeqHeader, Leaf.fn,
          Bool.false_eq_true, if_false, eval_bind, eval_read, exec_read, exec_bind]
        exact ih _ _

/-- What a write gives that becomes of a packet in this way, when the write action is `p`. -/
def Outcome.eval (p : Packet → Prog Mem Status) (m : Mem) : Outcome → Status
  | .append pkt => (p pkt).eval m
  | .declined => .ok
  | .failed e => some (.error e)
  | .stuck => none

/-- What it leaves. -/
def Outcome.exec (mode : ArenaMode) (p : Packet → Prog Mem Status) (m : Mem) : Outcome → Mem
  | .append pkt => (p pkt).exec m
  | .declined | .failed _ => (unlock mode).exec m
  | .stuck => m

/-- The middleware with the lock. -/
theorem chainOf_locked (json : Yyjson Val) (mode : ArenaMode) (p : Packet → Prog Mem Status) (ls : List Provided)
    (h : Host) (pkt : Packet) :
    let run := chainOf true (fun pkt => onArena (p pkt)) (ls.map (Provided.leaf json mode)) pkt
    let o := lockedPhase json mode h.mem h.mono ls pkt
    run.eval h = o.eval p h.mem ∧ (run.exec h).mem = o.exec mode p h.mem := by
  induction ls generalizing h pkt with
  | nil => exact ⟨rfl, rfl⟩
  | cons l ls ih =>
    cases l with
    | timeMono => exact ih h (pkt.addHeader "a0_time_mono" h.mono)
    | timeWall | writerId | writerSeq => exact ih h pkt
    | transportSeq =>
      cases hs : seqText (workingState h.mem).seqHigh with
      | none =>
        simp only [lockedPhase, hs, List.map_cons, chainOf, Provided.leaf, addTransportSeqHeader, Leaf.fn,
          if_true, eval_bind, eval_read, exec_read, exec_bind, eval_pure, exec_pure]
        exact ⟨rfl, rfl⟩
      | some text =>
        simp only [lockedPhase, hs, List.map_cons, chainOf, Provided.leaf, addTransportSeqHeader, Leaf.fn,
          if_true, eval_bind, eval_read, exec_read, exec_bind]
        exact ih h _
    | writeIfEmpty written =>
      simp only [lockedPhase, List.map_cons, chainOf, Provided.leaf, AlephZero.writeIfEmpty, Leaf.fn, if_true,
        eval_bind, eval_read, exec_read, exec_bind]
      have hmem : ((setFlag written (empty h.mem)).exec h).mem = h.mem := by cases written <;> rfl
      have hmono : ((setFlag written (empty h.mem)).exec h).mono = h.mono := by cases written <;> rfl
      have hrun := ih ((setFlag written (empty h.mem)).exec h) pkt
      rw [hmem, hmono] at hrun
      by_cases he : empty h.mem = true
      · simp only [he, ↓reduceIte] at hrun ⊢
        exact hrun
      · simp only [he] at hmem
        simp only [he, ↓reduceIte, Bool.false_eq_true, eval_bind, exec_bind, eval_pure, exec_pure, exec_onArena]
        exact ⟨rfl, congrArg (unlock mode).exec hmem⟩
    | jsonMergepatch =>
      simp only [lockedPhase, List.map_cons, chainOf, Provided.leaf, AlephZero.jsonMergepatch, Leaf.fn, if_true,
        eval_bind, eval_read, exec_read, exec_bind]
      by_cases he : empty h.mem = true
      · simp only [he, ↓reduceIte]
        exact ih h pkt
      · simp only [he, ↓reduceIte, Bool.false_eq_true, eval_bind, eval_read, exec_read, exec_bind]
        cases newestPacket h.mem { arena := ⟨0, mode⟩ } with
        | none => exact ⟨rfl, rfl⟩
        | some fpkt =>
          simp only [eval_bind, eval_read, exec_read, exec_bind]
          cases hm : mergePayload json (h.mem.loadBytes (flatPacketPayload h.mem fpkt).data
              (flatPacketPayload h.mem fpkt).size) pkt.payload with
          | error e => exact ⟨rfl, rfl⟩
          | ok payload => exact ih h { pkt with payload := payload }

/-- **What a write does** depends on what becomes of its packet. -/
theorem writerWrite_eq (json : Yyjson Val) (mode : ArenaMode) (out : Buf) (w : Build Provided) (h : Host)
    (pkt : Packet) :
    let o := outcome json mode w.leaves h pkt
    let m := (lock mode).exec h.mem
    let p := writeActionProcessLocked mode out
    (writerWrite json mode out w pkt).eval h = o.eval p m ∧
      (o ≠ .stuck → ((writerWrite json mode out w pkt).exec h).mem = o.exec mode p m) := by
  intro o m p
  rw [writerWrite, write_eq, flatWrite]
  have hp := chainOf_process json mode (fun pkt => do
    (writeAction mode out).lock
    chainOf true (writeAction mode out).processLocked (w.leaves.map (Provided.leaf json mode)) pkt) w.leaves h pkt
  cases hph : processPhase w.leaves h pkt with
  | none =>
    rw [hph] at hp
    have ho : o = .stuck := by simp only [o, outcome, hph]
    exact ⟨by rw [hp, ho]; rfl, fun hne => absurd ho hne⟩
  | some r =>
    obtain ⟨pkt', h'⟩ := r
    rw [hph] at hp
    have ho : o = lockedPhase json mode m h'.mono w.leaves pkt' := by
      simp only [o, outcome, hph, processPhase_mem hph, m]
    have hm : (onArena (lock mode)).exec h' = { h' with mem := m } := by
      rw [exec_onArena, processPhase_mem hph]
    have hl := chainOf_locked json mode p w.leaves { h' with mem := m } pkt'
    simp only [writeAction, eval_bind, exec_bind, hm] at hp
    rw [ho]
    exact ⟨hp.1.trans hl.1, fun _ => (congrArg Host.mem hp.2).trans hl.2⟩

/-! ### The write action -/

/-- The allocator gives the data of a new frame. -/
theorem allocator_gives {size : ℕ} (hmode : mode ≠ .readonly) (h : Ready m n C X q)
    (hq : q + X.length + 2 < 2 ^ 64) (hsize : size < 2 ^ 63) (hfit : 184 + size ≤ n) :
    ∃ f : Frame, (Transport.alloc mode size).eval m = some (.ok f.off) ∧
      Allocated m ((allocatorImpl mode size).exec m) n C X q size f ∧
      Gives (allocatorImpl mode) m size ⟨f.off + 40, size⟩ := by
  rcases post_of_wpc (alloc_ready hmode h hq hsize) with ⟨hlt, -, -⟩ | ⟨-, f, hr, ha⟩
  · omega
  obtain ⟨C', X', q', ht, -, -⟩ := ha.ready_append
  have hf : f ∈ C' ++ (X' ++ [f]) := by simp
  have hin := ht.stored hf
  obtain ⟨-, i, c, w, -, -, -, hw, -, -⟩ := ht
  have hup := hw.layout.upper f hf
  have hn := hw.layout.size
  have hlen := ha.length
  unfold Frame.stop at hup
  have hexec : (allocatorImpl mode size).exec m = (Transport.alloc mode size).exec m := by
    simp only [allocatorImpl, exec_bind, hr, exec_read, exec_pure]
  refine ⟨f, hr, hexec ▸ ha, ?_, rfl, ?_⟩
  · simp only [allocatorImpl, eval_bind, hr, eval_read, exec_read, eval_pure, hin.size, hlen]
  · simp only [addressSpace]
    omega

/-- A packet that fits is appended. -/
theorem append_packet (out : Buf) (hmode : mode ≠ .readonly) (h : Ready m n C X q)
    (hq : q + X.length + 2 < 2 ^ 64) (hsize : pkt.stats.serialSize < 2 ^ 63)
    (hfit : 184 + pkt.stats.serialSize ≤ n) :
    (writeActionProcessLocked mode out pkt).eval m = .ok ∧
    (∃ f : Frame, f.seq = q + X.length + 1 ∧ f.data = pkt.wire ∧
      Ready ((writeActionProcessLocked mode out pkt).exec m) n
        (kept n pkt.stats.serialSize (C ++ X) ++ [f]) [] (q + X.length + 1)) := by
  obtain ⟨f, -, ha, hgives⟩ := allocator_gives hmode h hq hsize hfit
  obtain ⟨heval, -, -⟩ := Packet.serialize_spec out hgives
  obtain ⟨C', X', q', ht, hkept, hq'⟩ := ha.ready_append
  have hlen : f.data.length = pkt.wire.length := ha.length.trans pkt.length_wire.symm
  -- what serializing leaves of the allocated frame
  have hstored := post_of_wpc (pkt.serializeTo_wpc (f.off + 40) (m := (allocatorImpl mode pkt.stats.serialSize).exec m))
  have hfill := ht.sameOutside (hlen ▸ hstored.1)
  have hexec : (pkt.serialize (allocatorImpl mode) out).exec m =
      (pkt.serializeTo (f.off + 40)).exec ((allocatorImpl mode pkt.stats.serialSize).exec m) := by
    simp only [Packet.serialize, exec_bind, hgives.eval, exec_pure]
  have hdata : (f.reread ((pkt.serializeTo (f.off + 40)).exec
      ((allocatorImpl mode pkt.stats.serialSize).exec m))).data = pkt.wire := by
    rw [Frame.reread, hlen]
    exact hstored.2
  have hcommit := post_of_wpc (commit_ready hfill)
  rw [← List.append_assoc, hkept, List.length_append, List.length_singleton, ← add_assoc, hq'] at hcommit
  have hunlock := unlock_committed mode hcommit
  refine ⟨?_, f.reread _, ha.seq, hdata, ?_⟩
  · simp only [writeActionProcessLocked, eval_bind, heval, eval_pure]
  · simp only [writeActionProcessLocked, exec_bind, heval, exec_pure, hexec]
    exact hunlock

/-- A packet that is refused is written to wherever `out` is, and A0_OK returned. -/
theorem append_refused {e : Err} (hr : (Transport.alloc mode pkt.stats.serialSize).eval m = some (.error e)) :
    (writeActionProcessLocked mode out pkt).eval m = .ok := by
  have halloc : (allocatorImpl mode pkt.stats.serialSize).eval m = some (.error e) := by
    simp only [allocatorImpl, eval_bind, hr, eval_pure]
  simp only [writeActionProcessLocked, Packet.serialize, eval_bind, halloc, eval_pure]

/-! ### The log that a write works on -/

theorem seenLog_eq (h : Ready m n C X q) : seenLog mode m = (C ++ unlocked mode X).map Frame.entry ∧
    (seen mode m).seqHigh = q + (unlocked mode X).length := by
  rw [seenLog, seen, unlocked]
  split_ifs with hmode
  · obtain ⟨-, c, hc, hh, hq⟩ := h.logged
    rw [hc.state, logOf_eq hh, List.append_nil]
    exact ⟨rfl, hq⟩
  · exact ⟨by rw [logOf, h.framesOf_eq]; rfl, h.seqHigh_eq⟩

/-- A write is all or nothing: it returns A0_OK and has appended the packet that its
middleware makes, behind what an eviction has left, or was to append none, or it returns an
error and the log is what it was; the packet is stored to the data of an allocated frame
and nowhere else; and the error of the allocation is returned. -/
structure AllOrNothing (json : Yyjson Val) (mode : ArenaMode) (out : Buf) (w : Build Provided) (h : Host)
    (pkt : Packet) : Prop where
  returns : (writerWrite json mode out w pkt).eval h ≠ none
  ok : (writerWrite json mode out w pkt).eval h = .ok →
    (∃ pkt' k, outcome json mode w.leaves h pkt = .append pkt' ∧
      seenLog mode ((writerWrite json mode out w pkt).exec h).mem =
        (seenLog mode h.mem).drop k ++ [((seen mode h.mem).seqHigh + 1, pkt'.wire)]) ∨
    outcome json mode w.leaves h pkt = .declined ∧
      seenLog mode ((writerWrite json mode out w pkt).exec h).mem = seenLog mode h.mem
  error : ∀ e, (writerWrite json mode out w pkt).eval h = some (.error e) →
    seenLog mode ((writerWrite json mode out w pkt).exec h).mem = seenLog mode h.mem
  confined : ∀ pkt', outcome json mode w.leaves h pkt = .append pkt' → ∀ m, m = (lock mode).exec h.mem →
    ∀ t, (pkt'.serialize (allocatorImpl mode) out).Crash m t →
      (allocatorImpl mode pkt'.stats.serialSize).Crash m t ∨
      ∃ off, (Transport.alloc mode pkt'.stats.serialSize).eval m = some (.ok off) ∧
        Mem.SameOutside (off + 40) pkt'.stats.serialSize
          ((allocatorImpl mode pkt'.stats.serialSize).exec m) t
  refused : ∀ pkt', outcome json mode w.leaves h pkt = .append pkt' → ∀ e,
    (Transport.alloc mode pkt'.stats.serialSize).eval ((lock mode).exec h.mem) = some (.error e) →
      (writerWrite json mode out w pkt).eval h = some (.error e)

/-- The packet that is to be appended fits, if there is one, and may be written. -/
def Fits (mode : ArenaMode) (m : Mem) : Outcome → Prop
  | .append pkt => mode ≠ .readonly ∧ 184 + pkt.stats.serialSize ≤ arenaSize m
  | .declined | .failed _ => True
  | .stuck => False

variable {w : Build Provided}

/-- A packet that is refused is reported as written. -/
theorem not_allOrNothing {e : Err} (ho : outcome json mode w.leaves h pkt = .append pkt')
    (hr : (Transport.alloc mode pkt'.stats.serialSize).eval ((lock mode).exec h.mem) = some (.error e)) :
    ¬ AllOrNothing json mode out w h pkt := by
  intro hall
  have heval := (writerWrite_eq json mode out w h pkt).1
  simp only [ho] at heval
  have hok : (writerWrite json mode out w pkt).eval h = .ok := heval.trans (append_refused hr)
  have herr := hall.refused pkt' ho e hr
  rw [hok] at herr
  cases herr

/-- The allocation of a packet that does not fit fails. -/
theorem alloc_refuses {size : ℕ} (h : Ready m n C X q) (hq : q + X.length + 2 < 2 ^ 64) (hsize : size < 2 ^ 63)
    (hfit : ¬ (mode ≠ .readonly ∧ 184 + size ≤ n)) :
    ∃ e, (Transport.alloc mode size).eval m = some (.error e) := by
  by_cases hmode : mode = .readonly
  · exact ⟨_, by rw [Transport.alloc, if_pos hmode, eval_pure]⟩
  · rcases post_of_wpc (alloc_ready hmode h hq hsize) with ⟨-, hr, -⟩ | ⟨hle, -⟩
    · exact ⟨_, hr⟩
    · exact absurd ⟨hmode, hle⟩ hfit

/-- A packet that fits is appended, or there is nothing to append. -/
theorem allOrNothing_of_fits (h₀ : Ready h.mem n C X q) (hq : q + X.length + 2 < 2 ^ 64)
    (hsize : ∀ pkt', outcome json mode w.leaves h pkt = .append pkt' → pkt'.stats.serialSize < 2 ^ 63)
    (hfits : Fits mode h.mem (outcome json mode w.leaves h pkt)) : AllOrNothing json mode out w h pkt := by
  obtain ⟨heval, hexec⟩ := writerWrite_eq json mode out w h pkt
  obtain ⟨hlog, hlast⟩ : seenLog mode h.mem = (C ++ unlocked mode X).map Frame.entry ∧
      (seen mode h.mem).seqHigh = q + (unlocked mode X).length := seenLog_eq h₀
  have hlock : Ready ((lock mode).exec h.mem) n C (unlocked mode X) q := post_of_wpc (lock_mode mode h₀)
  have hq' : q + (unlocked mode X).length + 2 < 2 ^ 64 := by
    unfold unlocked
    split_ifs
    · rw [List.length_nil]; omega
    · exact hq
  -- a write that appends nothing leaves the log
  have hsame : seenLog mode ((unlock mode).exec ((lock mode).exec h.mem)) = seenLog mode h.mem := by
    have hunlock : Ready ((unlock mode).exec ((lock mode).exec h.mem)) n C (unlocked mode X) q := by
      have hl := post_of_wpc (lock_mode mode hlock)
      rwa [unlocked_unlocked] at hl
    rw [(seenLog_eq hunlock).1, hlog, unlocked_unlocked]
  cases ho : outcome json mode w.leaves h pkt with
  | stuck => rw [ho] at hfits; exact hfits.elim
  | declined =>
    rw [ho] at heval hexec
    have hmem := hexec nofun
    refine ⟨by rw [heval]; nofun, fun _ => .inr ⟨ho, by rw [hmem]; exact hsame⟩, fun e he => ?_, ?_, ?_⟩
    · rw [hmem]; exact hsame
    all_goals rw [ho]; nofun
  | failed e =>
    rw [ho] at heval hexec
    have hmem := hexec nofun
    refine ⟨by rw [heval]; nofun, fun hok => ?_, fun e he => by rw [hmem]; exact hsame, ?_, ?_⟩
    · rw [heval] at hok; cases hok
    all_goals rw [ho]; nofun
  | append pkt' =>
    rw [ho] at heval hexec hfits
    obtain ⟨hmode, hfit⟩ := hfits
    rw [h₀.arenaSize_eq] at hfit
    obtain ⟨hok, f, hseq, hdata, hready⟩ := append_packet out hmode hlock hq' (hsize pkt' ho) hfit
    obtain ⟨f', hr, ha, hgives⟩ := allocator_gives hmode hlock hq' (hsize pkt' ho) hfit
    have hmem := hexec nofun
    have hret : (writerWrite json mode out w pkt).eval h = .ok := heval.trans hok
    refine ⟨by rw [hret]; nofun, fun _ => .inl ⟨pkt', evictions n pkt'.stats.serialSize (C ++ unlocked mode X),
      ho, ?_⟩, fun e he => ?_, ?_, ?_⟩
    · rw [hmem, hlog, hlast]
      simp only [Outcome.exec, (seenLog_eq hready).1, unlocked_nil, List.append_nil, List.map_append,
        List.map_singleton, Frame.entry, hseq, hdata, kept, List.map_drop]
    · rw [hret] at he; cases he
    · rw [ho]
      rintro _ ⟨⟩ m rfl t ht
      rcases (Packet.serialize_spec out hgives).2.2 t ht with ht | ht
      · exact .inl ht
      · exact .inr ⟨f'.off, hr, ht⟩
    · rw [ho]
      rintro _ ⟨⟩ e he
      rw [hr] at he; cases he

/-- **A write is all or nothing** if and only if the packet that is to be appended, if
there is one, fits into the arena, and the arena may be written to. -/
theorem allOrNothing_iff {mode' : ArenaMode} (hmode' : mode' ≠ .readonly) (hm : Reachable mode' h.mem)
    (hq : (workingState h.mem).seqHigh + 2 < 2 ^ 64)
    (hsize : ∀ pkt', outcome json mode w.leaves h pkt = .append pkt' → pkt'.stats.serialSize < 2 ^ 63) :
    AllOrNothing json mode out w h pkt ↔ Fits mode h.mem (outcome json mode w.leaves h pkt) := by
  obtain ⟨n, C, X, q, h₀⟩ := hm.ready hmode'
  rw [h₀.seqHigh_eq] at hq
  refine ⟨fun hall => ?_, allOrNothing_of_fits h₀ hq hsize⟩
  cases ho : outcome json mode w.leaves h pkt with
  | declined | failed => trivial
  | stuck =>
    have heval := (writerWrite_eq json mode out w h pkt).1
    rw [ho] at heval
    exact hall.returns heval
  | append pkt' =>
    by_contra hfit
    have hlock : Ready ((lock mode).exec h.mem) n C (unlocked mode X) q := post_of_wpc (lock_mode mode h₀)
    have hq' : q + (unlocked mode X).length + 2 < 2 ^ 64 := by
      unfold unlocked
      split_ifs
      · rw [List.length_nil]; omega
      · exact hq
    rw [Fits, h₀.arenaSize_eq] at hfit
    obtain ⟨e, he⟩ := alloc_refuses hlock hq' (hsize pkt' ho) hfit
    exact not_allOrNothing ho he hall

/-- What a write to a new arena of 1000 bytes works on. -/
def fresh : Host := ⟨reached .shared [.init 1000], fun _ => 0, .ofString "0", .ofString "0"⟩

theorem fresh_mem : fresh.mem = reached .shared [.init 1000] := by rw [fresh]

theorem fresh_ready : Ready fresh.mem 1000 [] [] 0 := by
  rw [fresh_mem]
  exact reached_init .shared (by norm_num)

/-- A packet with no headers. -/
def bare (payload : List UInt8) : Packet := ⟨⟨List.replicate 37 97, rfl⟩, [], payload⟩

theorem bare_serialSize (payload : List UInt8) : (bare payload).stats.serialSize = 53 + payload.length := by
  simp [bare, Packet.stats]

/-- A JSON library that can read nothing. -/
def noJson : Yyjson Unit := ⟨fun _ => 0, fun _ => .error "no memory", fun _ _ => (), fun _ _ => .ok []⟩

/-- A payload of 1000 bytes is not written to an arena of 1000 bytes, and A0_OK returned. -/
theorem not_allOrNothing_large :
    ¬ AllOrNothing noJson .shared ⟨5000, 0⟩ .init fresh (bare (List.replicate 1000 0)) := by
  have h := post_of_wpc (lock_mode .shared fresh_ready)
  have hsize : (bare (List.replicate 1000 0)).stats.serialSize = 1053 := by
    rw [bare_serialSize, List.length_replicate]
  obtain ⟨e, he⟩ : ∃ e, (Transport.alloc .shared 1053).eval ((lock .shared).exec fresh.mem) = some (.error e) :=
    alloc_refuses h (by simp [unlocked]) (by norm_num) (by simp)
  have ho (payload : List UInt8) : outcome noJson .shared Build.init.leaves fresh (bare payload) =
      .append (bare payload) := rfl
  exact not_allOrNothing (ho _) (by rwa [hsize])

/-- A payload of one byte is. -/
theorem allOrNothing_iff_small :
    AllOrNothing noJson .shared ⟨5000, 0⟩ .init fresh (bare [7]) := by
  have ho : outcome noJson .shared Build.init.leaves fresh (bare [7]) = .append (bare [7]) := rfl
  have hsize : (bare [7]).stats.serialSize = 54 := bare_serialSize [7]
  have hshared : ArenaMode.shared ≠ .readonly := by decide
  refine (allOrNothing_iff hshared ⟨1000, [], by decide, by decide, fresh_mem⟩ ?_ ?_).mpr ?_
  · rw [fresh_ready.seqHigh_eq]
    norm_num
  · rw [ho]
    rintro _ ⟨⟩
    rw [hsize]
    norm_num
  · rw [ho]
    exact ⟨by decide, by rw [hsize, fresh_ready.arenaSize_eq]; norm_num⟩

end AlephZero
