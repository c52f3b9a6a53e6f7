import AlephZero.Writer.AllOrNothing

/-!
# The standard headers

What `a0_add_standard_headers` makes of a packet: five blocks of one header each, in front
of the packet's own (`Stamp`). Three of them are put there before the lock, and two under
it.

## What is proved

* `processPhase_standard`, `lockedPhase_standard` — what the middleware does to a packet
  before the lock, and under it.
* `headers_stamped` — the headers of the packet follow the five, in their order.
* **`standard_written`** — a packet that fits is written with the standard headers, and
  nothing else is done to it.
-/

namespace AlephZero

open ByteMem StoreProg Prog Transport

variable {Val : Type} {json : Yyjson Val} {mode : ArenaMode} {h h' : Host} {pkt pkt' : Packet} {m : Mem}
  {id : CString} {data : ℕ}

/-- A writer with the standard headers: that of a publisher, of a client or of a server. -/
def standardWriter (id : CString) (data : ℕ) : Build Provided := .push (addStandardHeaders id data) .init

/-- What the standard headers say of a packet. -/
structure Stamp where
  transportSeq : CString
  mono : CString
  writerSeq : CString
  id : CString
  wall : CString

namespace Stamp

/-- The headers, the outermost first. -/
def headers (s : Stamp) : List PacketHeader :=
  [⟨.ofString "a0_transport_seq", s.transportSeq⟩, ⟨.ofString "a0_time_mono", s.mono⟩,
    ⟨.ofString "a0_writer_seq", s.writerSeq⟩, ⟨.ofString "a0_writer_id", s.id⟩,
    ⟨.ofString "a0_time_wall", s.wall⟩]

end Stamp

/-- The packet with the headers that are added before the lock. -/
def Packet.stampedEarly (pkt : Packet) (writerSeq id wall : CString) : Packet :=
  ((pkt.addHeader "a0_time_wall" wall).addHeader "a0_writer_id" id).addHeader "a0_writer_seq" writerSeq

/-- The packet with the headers that are added under the lock. -/
def Packet.stampedLate (pkt : Packet) (transportSeq mono : CString) : Packet :=
  (pkt.addHeader "a0_time_mono" mono).addHeader "a0_transport_seq" transportSeq

/-- The packet with the standard headers. -/
def Packet.stamped (pkt : Packet) (s : Stamp) : Packet :=
  (pkt.stampedEarly s.writerSeq s.id s.wall).stampedLate s.transportSeq s.mono

theorem Packet.headers_stamped (pkt : Packet) (s : Stamp) : (pkt.stamped s).headers = s.headers ++ pkt.headers := rfl

theorem Packet.id_stamped (pkt : Packet) (s : Stamp) : (pkt.stamped s).id = pkt.id := rfl

theorem Packet.payload_stamped (pkt : Packet) (s : Stamp) : (pkt.stamped s).payload = pkt.payload := rfl

/-! ### The two phases -/

/-- Before the lock the counter of the writer is incremented. -/
theorem processPhase_standard (ls : List Provided) (h : Host) (pkt : Packet) :
    processPhase ((addStandardHeaders id data).leaves ++ ls) h pkt =
      match seqText (h.heap data) with
      | none => none
      | some text => processPhase ls ((setHeap data (wrap (h.heap data + 1))).exec h)
          (pkt.stampedEarly text id h.wall) := rfl

/-- Under the lock the newest sequence number is read. -/
theorem lockedPhase_standard (ls : List Provided) (m : Mem) (mono : CString) (pkt : Packet) :
    lockedPhase json mode m mono ((addStandardHeaders id data).leaves ++ ls) pkt =
      match seqText (workingState m).seqHigh with
      | none => .stuck
      | some text => lockedPhase json mode m mono ls (pkt.stampedLate text mono) := rfl

theorem leaves_standardWriter : (standardWriter id data).leaves = (addStandardHeaders id data).leaves ++ [] := rfl

/-- What a write has at the lock. -/
theorem exists_stampedEarly (hp : processPhase (standardWriter id data).leaves h pkt = some (pkt', h')) :
    ∃ writerSeq, pkt' = pkt.stampedEarly writerSeq id h.wall := by
  rw [leaves_standardWriter, processPhase_standard] at hp
  cases hw : seqText (h.heap data) with
  | none =>
    rw [hw] at hp
    cases hp
  | some writerSeq =>
    rw [hw] at hp
    cases hp
    exact ⟨writerSeq, rfl⟩

/-- What a write appends that comes to something. -/
theorem exists_stampedLate {mono : CString}
    (hne : lockedPhase json mode m mono (standardWriter id data).leaves pkt ≠ .stuck) :
    ∃ text, seqText (workingState m).seqHigh = some text ∧
      lockedPhase json mode m mono (standardWriter id data).leaves pkt = .append (pkt.stampedLate text mono) := by
  rw [leaves_standardWriter, lockedPhase_standard] at hne ⊢
  cases ht : seqText (workingState m).seqHigh with
  | none =>
    rw [ht] at hne
    exact absurd rfl hne
  | some text => exact ⟨text, rfl, rfl⟩

/-- The packet that is appended. -/
theorem outcome_standard_eq (json : Yyjson Val) (id : CString) (pkt : Packet) {writerSeq transportSeq : CString}
    (hw : seqText (h.heap data) = some writerSeq)
    (ht : seqText (workingState ((lock mode).exec h.mem)).seqHigh = some transportSeq) :
    outcome json mode (standardWriter id data).leaves h pkt =
      .append (pkt.stamped ⟨transportSeq, h.mono, writerSeq, id, h.wall⟩) := by
  rw [leaves_standardWriter, outcome, processPhase_standard, hw]
  simp only [processPhase, lockedPhase_standard, setHeap_mem, ht]
  rfl

/-- What becomes of a packet that is written with the standard headers. -/
theorem outcome_standard (json : Yyjson Val) (mode : ArenaMode) (h : Host) (pkt : Packet) :
    outcome json mode (standardWriter id data).leaves h pkt = .stuck ∨
      ∃ s : Stamp, outcome json mode (standardWriter id data).leaves h pkt = .append (pkt.stamped s) := by
  cases hw : seqText (h.heap data) with
  | none =>
    left
    rw [leaves_standardWriter, outcome, processPhase_standard, hw]
  | some writerSeq =>
    cases ht : seqText (workingState ((lock mode).exec h.mem)).seqHigh with
    | none =>
      left
      rw [leaves_standardWriter, outcome, processPhase_standard, hw]
      simp only [processPhase, lockedPhase_standard, setHeap_mem, ht]
    | some transportSeq => exact .inr ⟨_, outcome_standard_eq json id pkt hw ht⟩

variable {n q : ℕ} {C X : List Frame}

/-- **A packet that fits is written** with the standard headers. -/
theorem standard_written (out : Buf) (h₀ : Ready h.mem n C X q) (hq : q + X.length + 2 < 2 ^ 64)
    (hsize : ∀ pkt', outcome json mode (standardWriter id data).leaves h pkt = .append pkt' →
      pkt'.stats.serialSize < 2 ^ 63)
    (hfits : Fits mode h.mem (outcome json mode (standardWriter id data).leaves h pkt)) :
    ∃ s : Stamp, (writerWrite json mode out (standardWriter id data) pkt).eval h = .ok ∧
      (pkt.stamped s).wire.length < 2 ^ 63 ∧
      ∃ seq, (seenLog mode ((writerWrite json mode out (standardWriter id data) pkt).exec h).mem).getLast? =
        some (seq, (pkt.stamped s).wire) := by
  rcases outcome_standard json mode h pkt with ho | ⟨s, ho⟩
  · rw [ho] at hfits
    exact hfits.elim
  obtain ⟨heval, hexec⟩ := writerWrite_eq json mode out (standardWriter id data) h pkt
  rw [ho] at heval hexec hfits
  obtain ⟨hmode, hfit⟩ := hfits
  rw [h₀.arenaSize_eq] at hfit
  have hlock : Ready ((lock mode).exec h.mem) n C (unlocked mode X) q := post_of_wpc (lock_mode mode h₀)
  have hq' : q + (unlocked mode X).length + 2 < 2 ^ 64 := by
    unfold unlocked
    split_ifs
    · rw [List.length_nil]
      omega
    · exact hq
  obtain ⟨hok, f, -, hdata, hready⟩ := append_packet out hmode hlock hq' (hsize _ ho) hfit
  refine ⟨s, heval.trans hok, ?_, f.seq, ?_⟩
  · rw [Packet.length_wire]
    exact hsize _ ho
  · rw [hexec nofun, Outcome.exec, (seenLog_eq hready).1, unlocked_nil, List.append_nil, List.map_append,
      List.map_singleton, List.getLast?_concat, Frame.entry, hdata]

end AlephZero
