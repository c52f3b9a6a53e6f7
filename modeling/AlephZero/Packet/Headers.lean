import AlephZero.Strconv

/-!
# The headers of a packet

The header iterator of `packet.c`. It goes through the blocks of a packet, one behind the
other.

## What is proved

* `next_eq`, `nextMatch_eq` — the iterator gives the headers that it has ahead of it.
* `firstHeader_eq` — the first header with a key.
-/

namespace AlephZero

/-- `a0_packet_header_iterator_t`: its block, those behind it, and its index. -/
structure HeaderIterator where
  block : List (List PacketHeader)
  idx : ℕ

namespace HeaderIterator

/-- `a0_packet_header_iterator_init`. -/
def init (pkt : Packet) : HeaderIterator := ⟨pkt.headersBlock, 0⟩

/-- `a0_packet_header_iterator_next`, on the blocks and at the index. -/
def nextAt : List (List PacketHeader) → ℕ → Except Err PacketHeader × HeaderIterator
  | [], idx => (.error .iterDone, ⟨[], idx⟩)
  | block :: next, idx =>
    match block[idx]? with
    | some hdr => (.ok hdr, ⟨block :: next, idx + 1⟩)
    | none => nextAt next 0

/-- `a0_packet_header_iterator_next`. -/
def next (iter : HeaderIterator) : Except Err PacketHeader × HeaderIterator := nextAt iter.block iter.idx

/-- The headers that are ahead. -/
def ahead (iter : HeaderIterator) : List PacketHeader :=
  match iter.block with
  | [] => []
  | block :: next => block.drop iter.idx ++ next.flatten

theorem ahead_cons (block : List PacketHeader) (next : List (List PacketHeader)) (idx : ℕ) :
    ahead ⟨block :: next, idx⟩ = block.drop idx ++ next.flatten := rfl

/-- `next` gives the first header that is ahead. -/
theorem next_eq (iter : HeaderIterator) :
    match iter.ahead with
    | [] => iter.next.1 = .error .iterDone ∧ iter.next.2.ahead = []
    | hdr :: hdrs => iter.next.1 = .ok hdr ∧ iter.next.2.ahead = hdrs := by
  obtain ⟨block, idx⟩ := iter
  induction block generalizing idx with
  | nil => exact ⟨rfl, rfl⟩
  | cons block next ih =>
    cases hidx : block[idx]? with
    | none =>
      have hdrop : block.drop idx = [] := List.drop_eq_nil_of_le (List.getElem?_eq_none_iff.mp hidx)
      have hahead : ahead ⟨block :: next, idx⟩ = ahead ⟨next, 0⟩ := by
        rw [ahead_cons, hdrop]
        cases next <;> rfl
      have hnext : HeaderIterator.next ⟨block :: next, idx⟩ = HeaderIterator.next ⟨next, 0⟩ := by
        simp only [HeaderIterator.next, nextAt, hidx]
      rw [hahead, hnext]
      exact ih 0
    | some hdr =>
      obtain ⟨hlt, hget⟩ := List.getElem?_eq_some_iff.mp hidx
      have hahead : ahead ⟨block :: next, idx⟩ = hdr :: ahead ⟨block :: next, idx + 1⟩ := by
        rw [ahead_cons, ahead_cons, List.drop_eq_getElem_cons hlt, hget, List.cons_append]
      have hnext : HeaderIterator.next ⟨block :: next, idx⟩ = (.ok hdr, ⟨block :: next, idx + 1⟩) := by
        simp only [HeaderIterator.next, nextAt, hidx]
      rw [hahead, hnext]
      exact ⟨rfl, rfl⟩

theorem ahead_next_lt {iter : HeaderIterator} {hdr : PacketHeader} (h : iter.next.1 = .ok hdr) :
    iter.next.2.ahead.length < iter.ahead.length := by
  have heq := iter.next_eq
  cases hahead : iter.ahead with
  | nil =>
    rw [hahead] at heq
    rw [heq.1] at h
    cases h
  | cons hdr hdrs =>
    rw [hahead] at heq
    rw [heq.2]
    exact Nat.lt_succ_self _

/-- `a0_packet_header_iterator_next_match`. -/
def nextMatch (key : CString) (iter : HeaderIterator) : Except Err PacketHeader × HeaderIterator :=
  match _h : iter.next.1 with
  | .error e => (.error e, iter.next.2)
  | .ok hdr => if key = hdr.key then (.ok hdr, iter.next.2) else nextMatch key iter.next.2
termination_by iter.ahead.length
decreasing_by exact ahead_next_lt _h

/-- `next_match` gives the first header with the key that is ahead, and leaves those
behind it. -/
theorem nextMatch_eq (iter : HeaderIterator) (key : CString) :
    (nextMatch key iter).1 = (iter.ahead.find? fun hdr => key = hdr.key).elim (.error .iterDone) .ok ∧
      (nextMatch key iter).2.ahead = (iter.ahead.dropWhile fun hdr => key ≠ hdr.key).tail := by
  induction hn : iter.ahead.length using Nat.strong_induction_on generalizing iter with
  | _ n ih =>
    subst hn
    have heq := iter.next_eq
    rw [nextMatch]
    cases hahead : iter.ahead with
    | nil =>
      rw [hahead] at heq
      split
      · rename_i e he
        rw [heq.1] at he
        cases he
        exact ⟨rfl, heq.2⟩
      · rename_i hdr hok
        rw [heq.1] at hok
        cases hok
    | cons hdr hdrs =>
      rw [hahead] at heq
      split
      · rename_i e he
        rw [heq.1] at he
        cases he
      · rename_i hdr' hok
        rw [heq.1] at hok
        cases hok
        rw [List.find?_cons, List.dropWhile_cons]
        by_cases hkey : key = hdr.key
        · rw [if_pos hkey, decide_eq_true hkey, decide_eq_false (not_not_intro hkey)]
          exact ⟨rfl, heq.2⟩
        · rw [if_neg hkey, decide_eq_false hkey, decide_eq_true hkey, ← heq.2]
          exact ih _ (by rw [heq.2, hahead]; exact Nat.lt_succ_self _) _ rfl

end HeaderIterator

/-- All headers are ahead of an iterator that has just been initialized. -/
theorem Packet.ahead_init (pkt : Packet) : (HeaderIterator.init pkt).ahead = pkt.headers := by
  rw [HeaderIterator.ahead, HeaderIterator.init, headers]
  cases pkt.headersBlock <;> rfl

/-- The value of the first header with a key, by an iterator that has just been
initialized. -/
def Packet.firstHeader (pkt : Packet) (key : String) : Option CString :=
  match (HeaderIterator.nextMatch (.ofString key) (.init pkt)).1 with
  | .ok hdr => some hdr.val
  | .error _ => none

theorem Packet.firstHeader_eq (pkt : Packet) (key : String) :
    pkt.firstHeader key = (pkt.headers.find? fun hdr => .ofString key = hdr.key).map PacketHeader.val := by
  rw [firstHeader, (HeaderIterator.nextMatch_eq _ _).1, ahead_init]
  cases pkt.headers.find? _ <;> rfl

end AlephZero
