import AlephZero.Packet.Codec
import AlephZero.Packet.Headers

/-!
# Flat packets

The accessors of `packet.c` for a packet that is serialized, and its header iterator,
which goes through the index of offsets.

## The model

A header of a flat packet is given by two addresses. A string that is compared with a
key is read up to its null byte; `none` stands for a comparison that does not end.

## What is proved

* `flatView` — the accessors give what the packet holds.
* `HeaderIterator.call_eq`, `FlatHeaderIterator.call_eq` — what a call gives, from the headers
  that are ahead. At the end one iterator is done, and for the other nothing is found.
* **`flatView_iff`** — both iterators give the same, call by call, when and only when
  each call finds a header.
-/

namespace AlephZero

open ByteMem StoreProg Prog

variable {m : Mem} {hdr : PacketHeader} {hdrs : List PacketHeader} {fpkt : Buf}

/-- Two strings with the same bytes are the same. -/
theorem CString.bytes_inj {s s' : CString} : s.bytes = s'.bytes ↔ s = s' := by
  cases s
  cases s'
  rw [CString.mk.injEq]

/-! ### The accessors -/

/-- `a0_packet_header_t`, with its two pointers. -/
structure PacketHeaderRef where
  key : ℕ
  val : ℕ
  deriving DecidableEq

/-- The strings that a header points to. -/
def PacketHeaderRef.contents (m : Mem) (hdr : PacketHeaderRef) : Option (List UInt8 × List UInt8) := do
  let key ← m.cstr addressSpace hdr.key
  let val ← m.cstr addressSpace hdr.val
  pure (key, val)

/-- `a0_flat_packet_id`. -/
def flatPacketId (fpkt : Buf) : ℕ := fpkt.data

/-- `a0_flat_packet_header`. -/
def flatPacketHeader (m : Mem) (fpkt : Buf) (idx : ℕ) : Except Err PacketHeaderRef :=
  let numHdrs := m.load 8 (fpkt.data + 37)
  if numHdrs ≤ idx then .error .notFound
  else
    let keyOff := m.load 8 (fpkt.data + 37 + 8 + 8 * (2 * idx))
    let valOff := m.load 8 (fpkt.data + 37 + 8 + 8 * (2 * idx + 1))
    .ok ⟨fpkt.data + keyOff, fpkt.data + valOff⟩

/-! ### The iterator -/

/-- `a0_flat_packet_header_iterator_t`. -/
structure FlatHeaderIterator where
  fpkt : Buf
  idx : ℕ

namespace FlatHeaderIterator

/-- `a0_flat_packet_header_iterator_init`. -/
def init (fpkt : Buf) : FlatHeaderIterator := ⟨fpkt, 0⟩

/-- `a0_flat_packet_header_iterator_next`. The index advances also at the end. -/
def next (m : Mem) (iter : FlatHeaderIterator) : Except Err PacketHeaderRef × FlatHeaderIterator :=
  (flatPacketHeader m iter.fpkt iter.idx, ⟨iter.fpkt, (iter.idx + 1) % 2 ^ 64⟩)

/-- A header that is given is below the number of headers, and the index does not wrap. -/
theorem next_ok {iter : FlatHeaderIterator} {ref : PacketHeaderRef} (h : (next m iter).1 = .ok ref) :
    iter.idx < m.load 8 (iter.fpkt.data + 37) ∧ (next m iter).2 = ⟨iter.fpkt, iter.idx + 1⟩ := by
  have hlt := Mem.load_lt m 8 (iter.fpkt.data + 37)
  simp only [next, flatPacketHeader] at h
  split at h
  · cases h
  · rename_i hidx
    refine ⟨by omega, ?_⟩
    rw [next, Nat.mod_eq_of_lt (by omega)]

/-- `a0_flat_packet_header_iterator_next_match`. -/
def nextMatch (m : Mem) (key : CString) (iter : FlatHeaderIterator) :
    Option (Except Err PacketHeaderRef × FlatHeaderIterator) :=
  match _h : (next m iter).1 with
  | .error e => some (.error e, (next m iter).2)
  | .ok ref =>
    match m.cstr addressSpace ref.key with
    | none => none
    | some str =>
      if key.bytes = str then some (.ok ref, (next m iter).2)
      else nextMatch m key (next m iter).2
termination_by m.load 8 (iter.fpkt.data + 37) - iter.idx
decreasing_by
  obtain ⟨hlt, hnext⟩ := next_ok _h
  rw [hnext]
  exact Nat.sub_lt_sub_left hlt (Nat.lt_succ_self _)

end FlatHeaderIterator

/-! ### Calls -/

/-- A call of one of the two functions of an iterator. -/
inductive HeaderCall where
  | next
  | nextMatch (key : CString)

/-- A call on a packet. -/
def HeaderIterator.call (iter : HeaderIterator) : HeaderCall → Except Err PacketHeader × HeaderIterator
  | .next => iter.next
  | .nextMatch key => iter.nextMatch key

/-- What calls give, one after another. -/
def HeaderIterator.calls (iter : HeaderIterator) : List HeaderCall → List (Except Err PacketHeader)
  | [] => []
  | c :: cs => (iter.call c).1 :: (iter.call c).2.calls cs

/-- A call on a flat packet. -/
def FlatHeaderIterator.call (m : Mem) (iter : FlatHeaderIterator) :
    HeaderCall → Option (Except Err PacketHeaderRef × FlatHeaderIterator)
  | .next => some (iter.next m)
  | .nextMatch key => iter.nextMatch m key

/-- What calls give, one after another. -/
def FlatHeaderIterator.calls (m : Mem) (iter : FlatHeaderIterator) :
    List HeaderCall → Option (List (Except Err PacketHeaderRef))
  | [] => some []
  | c :: cs => do
    let r ← iter.call m c
    let rs ← r.2.calls m cs
    pure (r.1 :: rs)

/-- What a call finds among the headers that are ahead, and what is ahead of it then. -/
def HeaderCall.on : HeaderCall → List PacketHeader → Option PacketHeader × List PacketHeader
  | .next, hdrs => (hdrs.head?, hdrs.tail)
  | .nextMatch key, hdrs =>
    (hdrs.find? fun hdr => key = hdr.key, (hdrs.dropWhile fun hdr => key ≠ hdr.key).tail)

/-- Each call finds a header. -/
def Found : List HeaderCall → List PacketHeader → Prop
  | [], _ => True
  | c :: cs, hdrs => (c.on hdrs).1.isSome ∧ Found cs (c.on hdrs).2

/-- Both iterators give the same results, call by call: the same strings or the same error. -/
def SameCalls (m : Mem) (flat : FlatHeaderIterator) (iter : HeaderIterator)
    (calls : List HeaderCall) : Prop :=
  (flat.calls m calls).map (List.map (Except.map (PacketHeaderRef.contents m))) =
    some ((iter.calls calls).map (Except.map fun hdr => some hdr.contents))

/-- The accessors give what the packet holds. -/
structure FlatView (m : Mem) (fpkt : Buf) (pkt : Packet) : Prop where
  id : m.loadBytes (flatPacketId fpkt) 37 = pkt.id.bytes
  stats : flatStats m fpkt = pkt.stats
  payload : m.loadBytes (flatPacketPayload m fpkt).data (flatPacketPayload m fpkt).size = pkt.payload
  header : ∀ i, (flatPacketHeader m fpkt i).map (PacketHeaderRef.contents m) =
    pkt.headers[i]?.elim (.error .notFound) fun hdr => .ok (some hdr.contents)

/-! ### A header by its index -/

/-- The strings of a header are where the index says. -/
theorem cstr_index {a base off i : ℕ} (hidx : m.At a (index off hdrs)) (hstr : m.At (base + off) (strings hdrs))
    (hfit : off + (strings hdrs).length ≤ addressSpace) (hi : hdrs[i]? = some hdr) :
    m.cstr addressSpace (base + m.load 8 (a + 8 * (2 * i))) = some hdr.key.bytes ∧
      m.cstr addressSpace (base + m.load 8 (a + 8 * (2 * i + 1))) = some hdr.val.bytes := by
  induction hdrs generalizing a off i with
  | nil => cases hi
  | cons head hdrs ih =>
    have hhead : Packet.headerSize head = head.key.bytes.length + 1 + (head.val.bytes.length + 1) := rfl
    rw [index, Mem.at_append, Mem.at_append, List.length_append, length_leBytes, length_leBytes] at hidx
    rw [strings, Mem.at_append, Mem.at_append, List.length_append, CString.length_terminated,
      CString.length_terminated, ← hhead, Nat.add_assoc base, Nat.add_assoc base] at hstr
    rw [length_strings_cons] at hfit
    obtain ⟨⟨hi₁, hi₂⟩, hi₃⟩ := hidx
    obtain ⟨⟨hc₁, hc₂⟩, hc₃⟩ := hstr
    cases i with
    | zero =>
      cases hi
      rw [Nat.mul_zero, Nat.add_zero, Nat.zero_add, Nat.mul_one, Mem.load_of_at hi₁ (word_lt_iff.mpr (by omega)),
        Mem.load_of_at hi₂ (word_lt_iff.mpr (by omega))]
      exact ⟨CString.cstr_eq hc₁ (by omega), CString.cstr_eq hc₂ (by omega)⟩
    | succ i =>
      have hrest := ih hi₃ hc₃ (by omega) hi
      rwa [show a + (8 + 8) + 8 * (2 * i) = a + 8 * (2 * (i + 1)) by ring,
        show a + (8 + 8) + 8 * (2 * i + 1) = a + 8 * (2 * (i + 1) + 1) by ring] at hrest

/-- A packet stands serialized in memory. -/
structure Packet.Flat (pkt : Packet) (m : Mem) (fpkt : Buf) : Prop where
  wire : m.At fpkt.data pkt.wire
  size : fpkt.size = pkt.wire.length
  fits : fpkt.size < addressSpace

namespace Packet.Flat

variable {pkt : Packet}

theorem numHdrs (h : pkt.Flat m fpkt) : m.load 8 (fpkt.data + 37) = pkt.headers.length := by
  have hstats := flatStats_eq h.wire h.size (h.size ▸ h.fits)
  rw [← stats_numHdrs, ← hstats, flatStats]

/-- A header is found at each index below their number. -/
theorem header (h : pkt.Flat m fpkt) {i : ℕ} (hi : pkt.headers[i]? = some hdr) :
    ∃ ref, flatPacketHeader m fpkt i = .ok ref ∧
      m.cstr addressSpace ref.key = some hdr.key.bytes ∧ ref.contents m = some hdr.contents := by
  obtain ⟨-, -, hidx, -, hstr, -⟩ := at_wire.mp h.wire
  obtain ⟨hlt, -⟩ := List.getElem?_eq_some_iff.mp hi
  have hlen := pkt.length_wire
  have hser := pkt.stats_serialSize
  have hpay : pkt.payloadOff = pkt.contentOff + (strings pkt.headers).length := rfl
  have hfit : pkt.contentOff + (strings pkt.headers).length ≤ addressSpace := by
    have := h.size
    have := h.fits
    omega
  obtain ⟨hkey, hval⟩ := cstr_index hidx hstr hfit hi
  refine ⟨⟨fpkt.data + m.load 8 (fpkt.data + 45 + 8 * (2 * i)),
    fpkt.data + m.load 8 (fpkt.data + 45 + 8 * (2 * i + 1))⟩, ?_, hkey, ?_⟩
  · rw [flatPacketHeader, h.numHdrs, if_neg (by omega)]
  · rw [PacketHeaderRef.contents, hkey, hval]
    rfl

/-- And none is found from there on. -/
theorem header_none (h : pkt.Flat m fpkt) {i : ℕ} (hi : pkt.headers.length ≤ i) :
    flatPacketHeader m fpkt i = .error .notFound := by
  rw [flatPacketHeader, h.numHdrs, if_pos hi]

/-- The accessors give what the packet holds. -/
theorem flatView (h : pkt.Flat m fpkt) : FlatView m fpkt pkt := by
  obtain ⟨hid, -, -, hoff, -, hpayload⟩ := at_wire.mp h.wire
  have hlen := pkt.length_wire
  have hser := pkt.stats_serialSize
  have hsize := h.size
  have hfits := h.fits
  have hload : m.load 8 (fpkt.data + (37 + 8 + 2 * pkt.headers.length * 8)) = pkt.payloadOff := by
    rw [show 37 + 8 + 2 * pkt.headers.length * 8 = 45 + 16 * pkt.headers.length by omega]
    exact Mem.load_of_at hoff (word_lt_iff.mpr (by omega))
  constructor
  · rwa [Mem.At, pkt.id.length_eq] at hid
  · exact flatStats_eq h.wire h.size (h.size ▸ h.fits)
  · simp only [flatPacketPayload, h.numHdrs, hload, show fpkt.size - pkt.payloadOff = pkt.payload.length by omega]
    exact hpayload
  · intro i
    cases hi : pkt.headers[i]? with
    | none =>
      rw [h.header_none (List.getElem?_eq_none_iff.mp hi)]
      rfl
    | some hdr =>
      obtain ⟨ref, href, -, hcontents⟩ := h.header hi
      rw [href, Except.map, hcontents]
      rfl

end Packet.Flat

/-! ### What a call gives -/

theorem HeaderIterator.call_eq (iter : HeaderIterator) (c : HeaderCall) :
    (iter.call c).1 = (c.on iter.ahead).1.elim (.error .iterDone) .ok ∧
      (iter.call c).2.ahead = (c.on iter.ahead).2 := by
  cases c with
  | nextMatch key => exact iter.nextMatch_eq key
  | next =>
    have heq := iter.next_eq
    simp only [call, HeaderCall.on]
    cases hahead : iter.ahead with
    | nil =>
      rw [hahead] at heq
      exact heq
    | cons hdr hdrs =>
      rw [hahead] at heq
      exact heq

/-- What a call on a flat packet with the headers gives, if it finds a header, and if it
finds none. -/
def FlatAnswer (m : Mem) (fpkt : Buf) (hdrs : List PacketHeader) (found : Option PacketHeader × List PacketHeader)
    (r : Except Err PacketHeaderRef × FlatHeaderIterator) : Prop :=
  found.1.elim (r.1 = .error .notFound) fun hdr =>
    ∃ ref i, r = (.ok ref, ⟨fpkt, i⟩) ∧ ref.contents m = some hdr.contents ∧ hdrs.drop i = found.2

namespace FlatHeaderIterator

variable {pkt : Packet} {i : ℕ}

/-- `next` gives the first header that is ahead. -/
theorem next_cons (h : pkt.Flat m fpkt) (hdrop : pkt.headers.drop i = hdr :: hdrs) :
    ∃ ref, next m ⟨fpkt, i⟩ = (.ok ref, ⟨fpkt, i + 1⟩) ∧ m.cstr addressSpace ref.key = some hdr.key.bytes ∧
      ref.contents m = some hdr.contents ∧ pkt.headers.drop (i + 1) = hdrs := by
  have hget : pkt.headers[i]? = some hdr := by
    rw [← List.head?_drop, hdrop, List.head?_cons]
  obtain ⟨ref, href, hkey, hcontents⟩ := h.header hget
  have hok : (next m ⟨fpkt, i⟩).1 = .ok ref := href
  refine ⟨ref, Prod.ext hok (next_ok hok).2, hkey, hcontents, ?_⟩
  rw [← List.tail_drop, hdrop, List.tail_cons]

theorem next_nil (h : pkt.Flat m fpkt) (hdrop : pkt.headers.drop i = []) :
    (next m ⟨fpkt, i⟩).1 = .error .notFound :=
  h.header_none (List.drop_eq_nil_iff.mp hdrop)

theorem nextMatch_eq (h : pkt.Flat m fpkt) (key : CString) :
    ∃ r, nextMatch m key ⟨fpkt, i⟩ = some r ∧
      FlatAnswer m fpkt pkt.headers ((HeaderCall.nextMatch key).on (pkt.headers.drop i)) r := by
  induction hdrop : pkt.headers.drop i generalizing i with
  | nil =>
    have hnext := next_nil h hdrop
    rw [nextMatch]
    split
    · rename_i e he
      rw [hnext] at he
      cases he
      exact ⟨_, rfl, rfl⟩
    · rename_i ref hok
      rw [hnext] at hok
      cases hok
  | cons hdr hdrs ih =>
    obtain ⟨ref, hnext, hkey, hcontents, hrest⟩ := next_cons h hdrop
    have hok : (next m ⟨fpkt, i⟩).1 = .ok ref := congrArg Prod.fst hnext
    rw [nextMatch]
    split
    · rename_i e he
      rw [hok] at he
      cases he
    rename_i ref' hok'
    rw [hok] at hok'
    cases hok'
    rw [hkey, hnext]
    simp only [HeaderCall.on, List.find?_cons, List.dropWhile_cons]
    by_cases hmatch : key = hdr.key
    · rw [if_pos (congrArg CString.bytes hmatch)]
      refine ⟨_, rfl, ?_⟩
      simp only [hmatch, decide_true, ne_eq, not_true_eq_false, decide_false, Bool.false_eq_true, if_false]
      exact ⟨ref, i + 1, rfl, hcontents, hrest⟩
    · have hbytes : key.bytes ≠ hdr.key.bytes := fun heq => hmatch (CString.bytes_inj.mp heq)
      rw [if_neg hbytes]
      simp only [hmatch, decide_false, ne_eq, not_false_eq_true, decide_true, if_true]
      exact ih hrest

theorem call_eq (h : pkt.Flat m fpkt) (c : HeaderCall) :
    ∃ r, call m ⟨fpkt, i⟩ c = some r ∧ FlatAnswer m fpkt pkt.headers (c.on (pkt.headers.drop i)) r := by
  cases c with
  | nextMatch key => exact nextMatch_eq h key
  | next =>
    refine ⟨_, rfl, ?_⟩
    cases hdrop : pkt.headers.drop i with
    | nil => exact next_nil h hdrop
    | cons hdr hdrs =>
      obtain ⟨ref, hnext, -, hcontents, hrest⟩ := next_cons h hdrop
      exact ⟨ref, i + 1, hnext, hcontents, hrest⟩

end FlatHeaderIterator

/-! ### Any calls -/

theorem sameCalls_cons {flat : FlatHeaderIterator} {iter : HeaderIterator} {c : HeaderCall} {cs : List HeaderCall}
    {r : Except Err PacketHeaderRef × FlatHeaderIterator} (hcall : flat.call m c = some r) :
    SameCalls m flat iter (c :: cs) ↔
      r.1.map (PacketHeaderRef.contents m) = (iter.call c).1.map (fun hdr => some hdr.contents) ∧
        SameCalls m r.2 (iter.call c).2 cs := by
  simp only [SameCalls, FlatHeaderIterator.calls, HeaderIterator.calls, hcall, Option.bind_eq_bind, Option.bind_some]
  cases r.2.calls m cs with
  | none => simp
  | some rs => simp

/-- From any headers on, the results are the same when and only when each call finds a
header. -/
theorem sameCalls_iff {pkt : Packet} {iter : HeaderIterator} {i : ℕ} (h : pkt.Flat m fpkt)
    (hahead : iter.ahead = pkt.headers.drop i) (calls : List HeaderCall) :
    SameCalls m ⟨fpkt, i⟩ iter calls ↔ Found calls iter.ahead := by
  induction calls generalizing iter i with
  | nil => exact iff_of_true rfl trivial
  | cons c cs ih =>
    obtain ⟨r, hcall, hr⟩ := FlatHeaderIterator.call_eq (i := i) h c
    obtain ⟨hpkt, hnext⟩ := iter.call_eq c
    rw [← hahead, FlatAnswer] at hr
    rw [sameCalls_cons hcall, Found]
    cases hfound : (c.on iter.ahead).1 with
    | none =>
      -- one is done, and for the other nothing is found
      rw [hfound] at hr hpkt
      rw [show r.1 = _ from hr, hpkt]
      refine iff_of_false ?_ ?_
      · rintro ⟨hsame, -⟩
        cases hsame
      · rintro ⟨hsome, -⟩
        cases hsome
    | some hdr =>
      rw [hfound] at hr hpkt
      obtain ⟨ref, j, rfl, hcontents, hdrop⟩ := hr
      have hsame : Except.map (PacketHeaderRef.contents m) (.ok ref : Except Err PacketHeaderRef) =
          Except.map (fun hdr => some hdr.contents) (iter.call c).1 := by
        rw [hpkt, Except.map, hcontents]
        rfl
      have hiff := ih (hnext.trans hdrop.symm)
      rw [hnext] at hiff
      exact and_congr (iff_of_true hsame rfl) hiff

/-! ### The two views -/

namespace Packet

variable {pkt : Packet} {alloc : Alloc} {buf out : Buf}

/-- A packet stands serialized where it was serialized to. -/
theorem Flat.of_serialize {m' : Mem} (h : Gives alloc m pkt.stats.serialSize buf)
    (hkeep : m'.loadBytes buf.data buf.size = ((pkt.serialize alloc out).exec m).loadBytes buf.data buf.size) :
    pkt.Flat m' buf := by
  obtain ⟨-, hat, -⟩ := serialize_spec out h
  have hsize : buf.size = pkt.wire.length := h.size.trans length_wire.symm
  have hfits := h.fits
  refine ⟨?_, hsize, by omega⟩
  rw [Mem.At, ← hsize, hkeep, hsize]
  exact hat

/-- **A packet and its serialization**. In any memory where the flat packet is as it was
serialized, its accessors give what the packet holds; and calls of an iterator of the
one and of the other give the same headers and result codes, when and only when each
call finds a header. The call that finds none gives `notFound` for the flat packet, where
it gives `iterDone` for the packet. -/
theorem flatView_iff (h : Gives alloc m pkt.stats.serialSize buf) (calls : List HeaderCall) :
    (pkt.serialize alloc out).eval m = some (.ok buf) ∧
    ∀ m', m'.loadBytes buf.data buf.size = ((pkt.serialize alloc out).exec m).loadBytes buf.data buf.size →
      (FlatView m' buf pkt ∧ SameCalls m' (.init buf) (.init pkt) calls ↔ Found calls pkt.headers) := by
  refine ⟨(serialize_spec out h).1, ?_⟩
  intro m' hkeep
  have hflat : pkt.Flat m' buf := .of_serialize h hkeep
  have hiff := sameCalls_iff (i := 0) hflat pkt.ahead_init calls
  rw [ahead_init] at hiff
  exact (and_iff_right hflat.flatView).trans hiff

/-- A packet with an empty block, and a header in the next one that is looked for. -/
theorem flatView_iff_small :
    let pkt : Packet :=
      ⟨⟨List.replicate 37 97, rfl⟩, [[], [⟨⟨[107], by decide⟩, ⟨[], by decide⟩⟩]], [1, 0]⟩
    let m := (pkt.serialize (fun n => pure (some (.ok ⟨0, n⟩))) ⟨0, 0⟩).exec fun _ => 0
    FlatView m ⟨0, 74⟩ pkt ∧
      SameCalls m (.init ⟨0, 74⟩) (.init pkt) [.nextMatch ⟨[107], by decide⟩] := by
  intro pkt m
  have h : Gives (fun n => pure (some (.ok ⟨0, n⟩))) (fun _ => 0) pkt.stats.serialSize ⟨0, 74⟩ :=
    ⟨rfl, rfl, by decide⟩
  exact ((flatView_iff h [.nextMatch ⟨[107], by decide⟩]).2 m rfl).mpr ⟨rfl, trivial⟩

/-- The first call for a packet without headers. -/
theorem not_sameCalls :
    let pkt : Packet := ⟨⟨List.replicate 37 97, rfl⟩, [[]], []⟩
    let m := (pkt.serialize (fun n => pure (some (.ok ⟨0, n⟩))) ⟨0, 0⟩).exec fun _ => 0
    ((FlatHeaderIterator.init ⟨0, 53⟩).next m).1 = .error .notFound ∧
      (HeaderIterator.init pkt).next.1 = .error .iterDone ∧
      ¬SameCalls m (.init ⟨0, 53⟩) (.init pkt) [.next] := by
  intro pkt m
  have h : Gives (fun n => pure (some (.ok ⟨0, n⟩))) (fun _ => 0) pkt.stats.serialSize ⟨0, 53⟩ :=
    ⟨rfl, rfl, by decide⟩
  have hflat : pkt.Flat m ⟨0, 53⟩ := .of_serialize h rfl
  refine ⟨hflat.header_none (Nat.zero_le _), rfl, ?_⟩
  intro hsame
  obtain ⟨hfound, -⟩ := (sameCalls_iff (i := 0) hflat pkt.ahead_init [.next]).mp hsame
  cases hfound

end Packet

end AlephZero
