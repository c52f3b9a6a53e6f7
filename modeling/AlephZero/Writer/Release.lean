import AlephZero.Writer.Locking

/-!
# One lock for a write

A whole write, with what it does to the transport recorded in order (`Logbook`): before
the lock, under the lock, and behind its release.

## What is proved

* `Account.write_follows` — a write does to the host of a state what it does to a host, and
  if it returns, it has taken the lock, used the host, and released the lock.
* `write_returns` — on an arena that calls can reach, a write returns, as long as its
  numbers have a text.
* **`lock_released_once`** — whatever the middleware, the packet and the arena are.
-/

namespace AlephZero

open ByteMem StoreProg Prog Transport

variable {Val : Type} {json : Yyjson Val} {mode : ArenaMode} {out : Buf} {h : Host} {pkt : Packet}
  {w : Build Provided} {m : Mem} {n q : ℕ} {C X : List Frame}

/-! ### A record -/

/-- What is done, and to what. -/
inductive Use where
  /-- `a0_transport_lock`. -/
  | acquire
  /-- Anything that is done to the host, so to the transport too. -/
  | host
  /-- `a0_transport_unlock`. -/
  | release
  deriving DecidableEq

/-- A host, and what has been done, the latest last. -/
structure Logbook where
  host : Host
  trace : List Use

namespace Logbook

/-- A program on the host, which is recorded as this. -/
def recorded {α : Type} (u : Use) (p : Prog Host α) : Prog Logbook α := do
  let a ← Prog.focus Logbook.host (fun h s => { s with host := h }) p
  Prog.write fun s => { s with trace := s.trace ++ [u] }
  pure a

/-- Everything is recorded. -/
def locking (mode : ArenaMode) : Locking Logbook where
  onHost := recorded .host
  lock := recorded .acquire (onArena (lock mode))
  unlock := recorded .release (onArena (unlock mode))

/-- What is recorded is that the host is used. -/
def account (mode : ArenaMode) : Account (locking mode) mode where
  host := Logbook.host
  Uses s t := ∃ k, t.trace = s.trace ++ List.replicate k .host
  uses_refl s := ⟨0, (List.append_nil _).symm⟩
  eval_onHost _ _ := rfl
  host_onHost _ _ := rfl
  uses_onHost p s t := by
    rintro ⟨k, ht⟩
    refine ⟨k + 1, ?_⟩
    rw [ht, List.replicate_succ]
    exact (List.append_cons s.trace .host _).symm
  host_lock _ := rfl
  host_unlock _ := rfl

end Logbook

/-! ### A whole write -/

namespace Account

variable {σ : Type} {L : Locking σ} (A : Account L mode)

/-- The host is used, the lock is taken, the host is used, and the lock is released. -/
def OneLock (s u : σ) : Prop := ∃ t, A.Uses s t ∧ A.Releasing (L.lock.exec t) u

theorem absorbs_oneLock : Absorbs L A.OneLock := by
  rintro α p s u ⟨t, ht, hu⟩
  exact ⟨t, A.uses_onHost p s t ht, hu⟩

/-- From the lock on. -/
theorem follows_lock {k : Packet → Prog σ Status} {k' : Packet → Prog Host Status}
    (hk : ∀ pkt s, A.Follows A.Uses A.Releasing (k pkt) (k' pkt) s) (pkt : Packet) (s : σ) :
    A.Follows (fun _ _ => True) A.OneLock (do L.lock; k pkt) (do onArena (lock mode); k' pkt) s := by
  obtain ⟨heval, hhost, -, hreturned⟩ := hk pkt (L.lock.exec s)
  rw [A.host_lock] at heval hhost
  exact ⟨heval, hhost, fun _ => trivial, fun hne => ⟨s, A.uses_refl s, hreturned hne⟩⟩

/-- A write, by a writer that is built in any way. -/
theorem write_follows (json : Yyjson Val) (out : Buf) (w : Build Provided) (pkt : Packet) (s : σ) :
    A.Follows (fun _ _ => True) A.OneLock (L.write json mode out w pkt) (writerWrite json mode out w pkt) s := by
  rw [Locking.write, writerWrite, write_eq, write_eq]
  apply A.chainOf_follows json false
  · exact fun _ _ _ _ => trivial
  · exact A.absorbs_oneLock
  · exact fun _ => trivial
  · intro hlocked
    cases hlocked
  · apply A.follows_lock
    exact fun pkt s => A.chainOf_locked json out w.leaves s pkt

end Account

/-! ### A write returns -/

/-- There is a newest packet if the arena is not empty. -/
theorem exists_newestPacket (mode : ArenaMode) (he : empty m = false) :
    ∃ fpkt, newestPacket m { arena := ⟨0, mode⟩ } = some fpkt := by
  have hle : ¬ (workingState m).seqHigh < (workingState m).seqLow := by
    intro hlt
    rw [Transport.empty, TransportState.empty] at he
    simp [hlt] at he
  rw [newestPacket, jumpTail, if_neg (by rw [he]; exact Bool.false_ne_true)]
  simp only [frame]
  rw [if_neg hle]
  exact ⟨_, rfl⟩

/-- The middleware under the lock comes to an end. -/
theorem lockedPhase_ne_stuck {mono : CString} (hq : (workingState m).seqHigh < 10 ^ 19) (ls : List Provided)
    (pkt : Packet) : lockedPhase json mode m mono ls pkt ≠ .stuck := by
  obtain ⟨text, htext⟩ := exists_seqText hq
  induction ls generalizing pkt with
  | nil =>
    intro hstuck
    cases hstuck
  | cons l ls ih =>
    cases l with
    | timeMono | timeWall | writerId | writerSeq => exact ih _
    | transportSeq =>
      simp only [lockedPhase, htext]
      exact ih _
    | writeIfEmpty written =>
      rw [lockedPhase]
      split_ifs
      · exact ih pkt
      · intro hstuck
        cases hstuck
    | jsonMergepatch =>
      rw [lockedPhase]
      cases he : empty m with
      | true => exact ih pkt
      | false =>
        obtain ⟨fpkt, hfpkt⟩ := exists_newestPacket mode he
        simp only [Bool.false_eq_true, if_false, hfpkt]
        cases mergePayload json _ pkt.payload with
        | error e =>
          intro hstuck
          cases hstuck
        | ok payload => exact ih _

/-- So does the middleware before. -/
theorem processPhase_ne_none (ls : List Provided)
    (hdata : ∀ data, .writerSeq data ∈ ls → h.heap data + ls.length ≤ 10 ^ 19) (pkt : Packet) :
    processPhase ls h pkt ≠ none := by
  induction ls generalizing h pkt with
  | nil =>
    intro hnone
    cases hnone
  | cons l ls ih =>
    rw [List.length_cons] at hdata
    have hrest : ∀ data, .writerSeq data ∈ ls → h.heap data + ls.length ≤ 10 ^ 19 := by
      intro data hmem
      have := hdata data (List.mem_cons_of_mem l hmem)
      omega
    cases l with
    | timeMono | timeWall | writerId | transportSeq | writeIfEmpty | jsonMergepatch => exact ih hrest _
    | writerSeq data =>
      have hcount := hdata data List.mem_cons_self
      have hlt : h.heap data < 10 ^ 19 := by omega
      obtain ⟨text, htext⟩ := exists_seqText hlt
      simp only [processPhase, htext]
      apply ih
      intro data' hmem
      have hle := hdata data' (List.mem_cons_of_mem _ hmem)
      simp only [setHeap, exec_write]
      split_ifs with heq
      · have : wrap (h.heap data + 1) ≤ h.heap data + 1 := Nat.mod_le _ _
        omega
      · omega

/-- **A write returns**, on an arena that calls can reach, as long as the numbers that it
writes have at most 19 digits. -/
theorem write_returns {mode' : ArenaMode} (hmode' : mode' ≠ .readonly) (hm : Reachable mode' h.mem)
    (hq : (workingState h.mem).seqHigh < 10 ^ 19)
    (hdata : ∀ data, .writerSeq data ∈ w.leaves → h.heap data + w.leaves.length ≤ 10 ^ 19)
    (hsize : ∀ pkt', outcome json mode w.leaves h pkt = .append pkt' → pkt'.stats.serialSize < 2 ^ 63) :
    (writerWrite json mode out w pkt).eval h ≠ none := by
  obtain ⟨n, C, X, q, h₀⟩ := hm.ready hmode'
  have hlock : Ready ((lock mode).exec h.mem) n C (unlocked mode X) q := post_of_wpc (lock_mode mode h₀)
  have hle : (unlocked mode X).length ≤ X.length := by
    unfold unlocked
    split_ifs
    · exact Nat.zero_le _
    · exact le_rfl
  rw [h₀.seqHigh_eq] at hq
  have hlocked : (workingState ((lock mode).exec h.mem)).seqHigh < 10 ^ 19 := by
    rw [hlock.seqHigh_eq]
    omega
  rw [(writerWrite_eq json mode out w h pkt).1]
  cases ho : outcome json mode w.leaves h pkt with
  | stuck =>
    obtain ⟨⟨pkt', h'⟩, hp⟩ := Option.ne_none_iff_exists'.mp (processPhase_ne_none w.leaves hdata pkt)
    simp only [outcome, hp, processPhase_mem hp] at ho
    exact absurd ho (lockedPhase_ne_stuck hlocked w.leaves pkt')
  | declined | failed =>
    intro hnone
    cases hnone
  | append pkt' =>
    have hbound : q + (unlocked mode X).length + 2 < 2 ^ 64 := by omega
    have hok : (writeActionProcessLocked mode out pkt').eval ((lock mode).exec h.mem) = .ok := by
      by_cases hfit : mode ≠ .readonly ∧ 184 + pkt'.stats.serialSize ≤ n
      · exact (append_packet out hfit.1 hlock hbound (hsize pkt' ho) hfit.2).1
      · obtain ⟨e, he⟩ := alloc_refuses hlock hbound (hsize pkt' ho) hfit
        exact append_refused he
    rw [Outcome.eval, hok]
    intro hnone
    cases hnone

/-! ### One lock -/

/-- **The lock is taken once and released once** by a write, under whatever middleware in
any nesting, for any packet and on any arena. Behind the release nothing is done to the
host, so nothing to the transport. A write returns, if its numbers have at most 19 digits. -/
theorem lock_released_once (json : Yyjson Val) (mode : ArenaMode) (out : Buf) (w : Build Provided) (pkt : Packet)
    (h : Host) :
    let run := (Logbook.locking mode).write json mode out w pkt
    (run.eval ⟨h, []⟩ = (writerWrite json mode out w pkt).eval h ∧
      (run.exec ⟨h, []⟩).host = (writerWrite json mode out w pkt).exec h) ∧
    (run.eval ⟨h, []⟩ ≠ none → ∃ a b, (run.exec ⟨h, []⟩).trace =
      List.replicate a .host ++ .acquire :: (List.replicate b .host ++ [.release])) ∧
    ∀ mode', mode' ≠ .readonly → Reachable mode' h.mem → (workingState h.mem).seqHigh < 10 ^ 19 →
      (∀ data, .writerSeq data ∈ w.leaves → h.heap data + w.leaves.length ≤ 10 ^ 19) →
      (∀ pkt', outcome json mode w.leaves h pkt = .append pkt' → pkt'.stats.serialSize < 2 ^ 63) →
      run.eval ⟨h, []⟩ ≠ none := by
  intro run
  obtain ⟨heval, hhost, -, hreturned⟩ := (Logbook.account mode).write_follows json out w pkt ⟨h, []⟩
  refine ⟨⟨heval, hhost⟩, ?_, ?_⟩
  · intro hne
    obtain ⟨t, ⟨a, ht⟩, u, ⟨b, hu⟩, hexec⟩ := hreturned hne
    refine ⟨a, b, ?_⟩
    have hrelease : (run.exec ⟨h, []⟩).trace = u.trace ++ [.release] := congrArg Logbook.trace hexec
    have hacquire : ((Logbook.locking mode).lock.exec t).trace = t.trace ++ [.acquire] := rfl
    rw [hrelease, hu, hacquire, ht]
    simp
  · intro mode' hmode' hm hq hdata hsize hnone
    exact write_returns hmode' hm hq hdata hsize (heval.symm.trans hnone)

/-- A write of one byte to a new arena, with two middleware that look whether it is empty. -/
theorem lock_released_once_small :
    let w : Build Provided := .wrap (.leaf (.writeIfEmpty none)) (.push (.leaf .jsonMergepatch) .init)
    let run := (Logbook.locking .shared).write noJson .shared ⟨5000, 0⟩ w (bare [7])
    run.eval ⟨fresh, []⟩ ≠ none ∧ ∃ a b, (run.exec ⟨fresh, []⟩).trace =
      List.replicate a .host ++ .acquire :: (List.replicate b .host ++ [.release]) := by
  intro w run
  have hshared : ArenaMode.shared ≠ .readonly := by decide
  have hlock : Ready ((lock .shared).exec fresh.mem) 1000 [] [] 0 := post_of_wpc (lock_mode .shared fresh_ready)
  have hempty : empty ((lock .shared).exec fresh.mem) = true := hlock.empty_eq
  have ho : outcome noJson .shared w.leaves fresh (bare [7]) = .append (bare [7]) := by
    have hleaves : w.leaves = [.writeIfEmpty none, .jsonMergepatch] := rfl
    simp only [hleaves, outcome, processPhase, lockedPhase, hempty, if_true]
  have hsize : (bare [7]).stats.serialSize = 54 := bare_serialSize [7]
  obtain ⟨-, htrace, hreturns⟩ := lock_released_once noJson .shared ⟨5000, 0⟩ w (bare [7]) fresh
  have hne : run.eval ⟨fresh, []⟩ ≠ none := by
    apply hreturns .shared hshared ⟨1000, [], by decide, by decide, fresh_mem⟩
    · rw [fresh_ready.seqHigh_eq]
      norm_num
    · intro data _
      exact show 0 + 2 ≤ 10 ^ 19 by norm_num
    · rw [ho]
      rintro _ ⟨⟩
      rw [hsize]
      norm_num
  exact ⟨hne, htrace hne⟩

end AlephZero
