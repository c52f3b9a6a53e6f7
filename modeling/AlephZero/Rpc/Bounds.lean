import AlephZero.Rpc.Blocking
import AlephZero.Rpc.Shadowing

/-!
# The loads of the handlers

The handlers of `rpc.c` and `prpc.c` once more, with every load checked: of a header's strings, of
the payload, and of `UNHEX_VALUES`. A packet comes from any process.

## The model

A load that is not within its object is the error `A0_ERR_RANGE`, which none of these functions
returns. `memcpy` and `memcmp` load all bytes that they are told. A key that is looked up in a map
is what may be loaded at its address; the map is the one of `map.c`, whose callbacks may fail.

## What is proved

* `Checked.serverOnpacket_eq`, `Checked.clientKey_eq`, `Checked.blockingOnpacket_eq` — without such an
  error, the checked functions do what the others do.
* `Checked.lookup_ne_range`, `Checked.exists_lookup_range` — a look-up stays within an id of 37
  characters with ASCII digits, and on any other there is a map for which it does not.
* **`Checked.handlers_in_bounds_iff`** — the handlers stay in bounds if and only if the ids that they
  read have their full length, and those that they look up are ASCII where they are hashed.
-/

namespace AlephZero

/-- What may be loaded at the address of an object. -/
abbrev Bytes := List UInt8

namespace Checked

/-! ### Loads -/

/-- A load of one byte. -/
def loadByte (obj : Bytes) (i : ℕ) : Except Err UInt8 := obj[i]?.elim (.error .range) .ok

/-- A load of the first bytes. -/
def loadBytes (obj : Bytes) (n : ℕ) : Except Err Bytes := if n ≤ obj.length then .ok (obj.take n) else .error .range

/-- `strcmp`: it loads up to the null byte, or to a difference. -/
def strcmp : Bytes → Bytes → Except Err ℤ
  | a :: as, b :: bs =>
    if a = b then if a = 0 then .ok 0 else strcmp as bs
    else .ok ((a.toNat : ℤ) - b.toNat)
  | _, _ => .error .range

/-- `a0_packet_header_iterator_next_match`, on the headers that are ahead: the value of the first one. -/
def nextMatch (key : CString) : List PacketHeader → Except Err (Option CString)
  | [] => .ok none
  | hdr :: hdrs => do
    if (← strcmp key.terminated hdr.key.terminated) = 0 then
      return some hdr.val
    nextMatch key hdrs

/-- The value of the first header with a key. -/
def firstHeader (pkt : Packet) (key : String) : Except Err (Option CString) := nextMatch (.ofString key) pkt.headers

/-- A string is compared with a literal. -/
def isLiteral (s : CString) (lit : String) : Except Err Bool := do
  return (← strcmp s.terminated (CString.ofString lit).terminated) = 0

/-- A load from `UNHEX_VALUES`. -/
def unhex (uuid : Bytes) (i : ℕ) : Except Err UInt8 := do loadByte unhexValues (← loadByte uuid i).toNat

/-- Two digits. -/
def hashByte (uuid : Bytes) (i : ℕ × ℕ) : Except Err UInt8 := do return (← unhex uuid i.1) <<< 4 ||| (← unhex uuid i.2)

/-- The pairs of digits that are hashed. -/
def hashedDigits : List (ℕ × ℕ) := [(0, 1), (2, 3), (4, 5), (6, 7), (9, 10), (11, 12), (13, 15), (16, 17)]

/-- `a0_hash_uuid_fn` -/
def hashUuid (uuid : Bytes) : Except Err ℕ := do
  let hashBytes ← hashedDigits.mapM (hashByte uuid)
  return hashBytes.foldr (fun b n => b.toNat + 256 * n) 0

/-- `a0_cmp_uuid_fn` -/
def cmpUuid (lhs rhs : Bytes) : Except Err ℤ := do return memcmp (← loadBytes lhs 37) (← loadBytes rhs 37)

/-! ### Handlers -/

/-- The handler of a server. -/
def serverOnpacket (typeKey requestType : String) (oncancel : Bool) (pkt : Packet) : Except Err Served := do
  let some type ← firstHeader pkt typeKey | return .ignored
  if ← isLiteral type requestType then
    return .request
  if ← isLiteral type "cancel" then
    if oncancel then
      return .cancel (payloadId (← loadBytes pkt.payload 37) fun _ => 0)
  return .ignored

/-- `a0_rpc_client_onpacket`, up to its mutex: the key, which it pops. -/
def rpcClientKey (pkt : Packet) : Except Err (Option (CString × Bool)) := do
  let some rpctype ← firstHeader pkt "a0_rpc_type" | return none
  if !(← isLiteral rpctype "response") then
    return none
  let some reqid ← firstHeader pkt "a0_req_id" | return none
  return some (reqid, true)

/-- `a0_prpc_client_onpacket`, up to its mutex: the key, and whether it pops it. -/
def prpcClientKey (pkt : Packet) : Except Err (Option (CString × Bool)) := do
  let some connId ← firstHeader pkt "a0_conn_id" | return none
  let some type ← firstHeader pkt "a0_prpc_type" | return none
  return some (connId, ← isLiteral type "complete")

/-- The access of a client's handler to its map. -/
def lookup (map : Map Bytes Callback) (key : CString) (pop : Bool) : Option (Except Err Callback) :=
  if pop then (map.pop key.terminated).map Prod.fst else map.get key.terminated

/-- The handler of a client, with what it finds. -/
def clientOnpacket (clientKey : Packet → Except Err (Option (CString × Bool))) (map : Map Bytes Callback)
    (pkt : Packet) : Option (Except Err Callback) :=
  match clientKey pkt with
  | .error err => some (.error err)
  | .ok none => none
  | .ok (some (key, pop)) => lookup map key pop

/-- The loop of `a0_rpc_client_send_blocking_timeout`, on one packet. -/
def blockingOnpacket (id : Uuid) (pkt : Packet) : Except Err (Option (Except Err Packet)) := do
  let some rpctype ← firstHeader pkt "a0_rpc_type" | return none
  let some reqid ← firstHeader pkt "a0_req_id" | return none
  if (← cmpUuid id.bytes reqid.terminated) = 0 then
    if ← isLiteral rpctype "cancel" then
      return some (.error .cancelled)
    return some (.ok pkt)
  return none

/-! ### Strings -/

theorem strcmp_eq (s t : CString) : strcmp s.terminated t.terminated = pure (AlephZero.strcmp s t) := by
  obtain ⟨as, ha⟩ := s
  obtain ⟨bs, hb⟩ := t
  simp only [AlephZero.strcmp, CString.terminated]
  induction as generalizing bs with
  | nil =>
    cases bs with
    | nil => rfl
    | cons b bs =>
      have hb₀ : (0 : UInt8) ≠ b := fun h => hb (h ▸ List.mem_cons_self)
      simp [strcmp, memcmp, hb₀]
      rfl
  | cons a as ih =>
    have ha₀ : a ≠ 0 := fun h => ha (h ▸ List.mem_cons_self)
    cases bs with
    | nil =>
      simp [strcmp, memcmp, ha₀]
      rfl
    | cons b bs =>
      rw [List.cons_append, List.cons_append, strcmp, memcmp, if_neg ha₀,
        ih (fun h => ha (List.mem_cons_of_mem _ h)) bs fun h => hb (List.mem_cons_of_mem _ h)]
      split_ifs <;> rfl

theorem strcmp_eq_zero {s t : CString} : AlephZero.strcmp s t = 0 ↔ s = t := by
  rw [← cmpStr_eq_zero, cmpStr, Except.ok.injEq]

theorem isLiteral_eq (s : CString) (lit : String) : isLiteral s lit = pure (decide (s = .ofString lit)) := by
  rw [isLiteral, strcmp_eq, pure_bind]
  exact congrArg pure (decide_eq_decide.mpr strcmp_eq_zero)

theorem nextMatch_eq (key : CString) (hdrs : List PacketHeader) :
    nextMatch key hdrs = pure ((hdrs.find? fun hdr => key = hdr.key).map PacketHeader.val) := by
  induction hdrs with
  | nil => rfl
  | cons hdr hdrs ih =>
    rw [nextMatch, strcmp_eq, ih, List.find?_cons, pure_bind]
    by_cases h : key = hdr.key
    · simp [h, strcmp_eq_zero]
    · simp [h, strcmp_eq_zero]

theorem firstHeader_eq (pkt : Packet) (key : String) : firstHeader pkt key = pure (pkt.firstHeader key) := by
  rw [firstHeader, nextMatch_eq, Packet.firstHeader_eq]

/-! ### Servers -/

variable {pkt : Packet} {typeKey requestType : String}

theorem payloadId_take {payload : Bytes} (h : 37 ≤ payload.length) (behind behind' : ℕ → UInt8) :
    payloadId (payload.take 37) behind' = payloadId payload behind := by
  rw [payloadId, payloadId, Uuid.mk.injEq, List.take_append_of_le_length h, List.take_append_of_le_length (by simp [h]),
    List.take_take, Nat.min_self]

/-- A payload that is too short is loaded for a cancellation. -/
theorem serverOnpacket_eq (hne : CString.ofString requestType ≠ .ofString "cancel") (oncancel : Bool)
    (behind : ℕ → UInt8) :
    serverOnpacket typeKey requestType oncancel pkt =
      if pkt.firstHeader typeKey = some (.ofString "cancel") ∧ oncancel = true ∧ pkt.payload.length < 37 then
        .error .range
      else .ok (AlephZero.serverOnpacket typeKey requestType oncancel pkt behind) := by
  rw [serverOnpacket, firstHeader_eq, pure_bind, AlephZero.serverOnpacket]
  cases pkt.firstHeader typeKey with
  | none => rfl
  | some type =>
    simp only [isLiteral_eq, pure_bind, Option.some.injEq]
    by_cases hreq : type = .ofString requestType
    · have hcancel : type ≠ .ofString "cancel" := fun h => hne (hreq.symm.trans h)
      simp only [hreq, hne, decide_true, if_true, false_and, if_false]
      rfl
    by_cases hcancel : type = .ofString "cancel"
    · cases oncancel with
      | false =>
        simp only [hcancel, Ne.symm hne, decide_true, decide_false, if_true, if_false, Bool.false_eq_true, false_and,
          and_false]
        rfl
      | true =>
        simp only [hcancel, Ne.symm hne, decide_true, decide_false, if_true, if_false, Bool.false_eq_true, true_and,
          loadBytes]
        by_cases hlen : pkt.payload.length < 37
        · rw [if_neg (Nat.not_le.mpr hlen), if_pos hlen]
          rfl
        · rw [if_pos (Nat.not_lt.mp hlen), if_neg hlen, ← payloadId_take (Nat.not_lt.mp hlen) behind fun _ => 0]
          rfl
    · simp only [hreq, hcancel, decide_false, if_false, Bool.false_eq_true, false_and]
      rfl

/-! ### Ids -/

/-- A byte is there, and a digit of `UNHEX_VALUES`. -/
def Digit (obj : Bytes) (i : ℕ) : Prop := ∃ b, obj[i]? = some b ∧ b.toNat < 128

/-- What is hashed is there. -/
def Hashable (obj : Bytes) : Prop := ∀ i ∈ hashedDigits, Digit obj i.1 ∧ Digit obj i.2

variable {obj more : Bytes} {i : ℕ}

theorem unhex_of_digit (h : Digit obj i) (behind : ℕ → UInt8) :
    unhex obj i = pure (AlephZero.unhex behind (obj.getD i 0)) := by
  obtain ⟨b, hb, hlt⟩ := h
  have hlen : b.toNat < unhexValues.length := hlt
  have hget : obj.getD i 0 = b := by
    rw [List.getD_eq_getElem?_getD, hb]
    rfl
  rw [unhex, loadByte, hb, AlephZero.unhex, hget]
  show loadByte unhexValues b.toNat = _
  rw [loadByte, List.getElem?_eq_getElem hlen, List.getD_eq_getElem _ _ hlen]
  rfl

theorem unhex_of_not_digit (h : ¬ Digit obj i) : unhex obj i = .error .range := by
  rw [unhex, loadByte]
  cases hb : obj[i]? with
  | none => rfl
  | some b =>
    have hlen : unhexValues.length ≤ b.toNat := Nat.not_lt.mp fun hlt => h ⟨b, hb, hlt⟩
    show loadByte unhexValues b.toNat = _
    rw [loadByte, List.getElem?_eq_none hlen]
    rfl

/-- The bytes of the hash, without a check. -/
def hashByteAt (behind : ℕ → UInt8) (obj : Bytes) (i : ℕ × ℕ) : UInt8 :=
  AlephZero.unhex behind (obj.getD i.1 0) <<< 4 ||| AlephZero.unhex behind (obj.getD i.2 0)

theorem mapM_hashByte {l : List (ℕ × ℕ)} (h : ∀ i ∈ l, Digit obj i.1 ∧ Digit obj i.2) (behind : ℕ → UInt8) :
    l.mapM (hashByte obj) = pure (l.map (hashByteAt behind obj)) := by
  induction l with
  | nil => rfl
  | cons i l ih =>
    obtain ⟨hi, hl⟩ := List.forall_mem_cons.mp h
    rw [List.mapM_cons, hashByte, unhex_of_digit hi.1 behind, unhex_of_digit hi.2 behind, ih hl]
    rfl

theorem mapM_hashByte_range {l : List (ℕ × ℕ)} (h : ¬ ∀ i ∈ l, Digit obj i.1 ∧ Digit obj i.2) :
    l.mapM (hashByte obj) = .error .range := by
  induction l with
  | nil => exact absurd nofun h
  | cons i l ih =>
    rw [List.mapM_cons, hashByte]
    by_cases h₁ : Digit obj i.1
    · by_cases h₂ : Digit obj i.2
      · have hl := ih fun hl => h (List.forall_mem_cons.mpr ⟨⟨h₁, h₂⟩, hl⟩)
        rw [unhex_of_digit h₁ fun _ => 0, unhex_of_digit h₂ fun _ => 0, hl]
        rfl
      · rw [unhex_of_digit h₁ fun _ => 0, unhex_of_not_digit h₂]
        rfl
    · rw [unhex_of_not_digit h₁]
      rfl

/-- An id that can be hashed has its hash. -/
theorem hashUuid_eq (h : Hashable obj) (hlen : 37 ≤ obj.length) (behind : ℕ → UInt8) :
    hashUuid obj = AlephZero.hashUuid behind ⟨obj.take 37, by simp [hlen]⟩ := by
  rw [hashUuid, mapM_hashByte h behind, pure_bind, AlephZero.hashUuid]
  simp [hashedDigits, hashByteAt, List.getD_eq_getElem?_getD]
  rfl

theorem hashUuid_range (h : ¬ Hashable obj) : hashUuid obj = .error .range := by
  rw [hashUuid, mapM_hashByte_range h]
  rfl

/-- What is behind does not matter. -/
theorem hashUuid_append (h : Hashable obj) (more : Bytes) :
    ∃ hash, hashUuid obj = .ok hash ∧ hashUuid (obj ++ more) = .ok hash := by
  have hdigit : ∀ i, Digit obj i → Digit (obj ++ more) i ∧ (obj ++ more).getD i 0 = obj.getD i 0 := by
    rintro i ⟨b, hb, hlt⟩
    have hb' : (obj ++ more)[i]? = some b := by
      rw [List.getElem?_append_left (List.getElem?_eq_some_iff.mp hb).1, hb]
    exact ⟨⟨b, hb', hlt⟩, by rw [List.getD_eq_getElem?_getD, List.getD_eq_getElem?_getD, hb, hb']⟩
  have h' : Hashable (obj ++ more) := fun i hi => ⟨(hdigit _ (h i hi).1).1, (hdigit _ (h i hi).2).1⟩
  refine ⟨_, by rw [hashUuid, mapM_hashByte h fun _ => 0]; rfl, ?_⟩
  rw [hashUuid, mapM_hashByte h' fun _ => 0]
  have hsame : hashedDigits.map (hashByteAt (fun _ => 0) (obj ++ more)) =
      hashedDigits.map (hashByteAt (fun _ => 0) obj) := by
    refine List.map_congr_left fun i hi => ?_
    rw [hashByteAt, hashByteAt, (hdigit _ (h i hi).1).2, (hdigit _ (h i hi).2).2]
  rw [hsame]
  rfl

theorem cmpUuid_eq {lhs rhs : Bytes} (hl : 37 ≤ lhs.length) (hr : 37 ≤ rhs.length) :
    cmpUuid lhs rhs = .ok (memcmp (lhs.take 37) (rhs.take 37)) := by
  rw [cmpUuid, loadBytes, loadBytes, if_pos hl, if_pos hr]
  rfl

theorem cmpUuid_range {lhs rhs : Bytes} (h : lhs.length < 37 ∨ rhs.length < 37) : cmpUuid lhs rhs = .error .range := by
  rw [cmpUuid, loadBytes, loadBytes]
  by_cases hl : 37 ≤ lhs.length
  · rw [if_pos hl, if_neg (Nat.not_le.mpr (h.resolve_left (Nat.not_lt.mpr hl)))]
    rfl
  · rw [if_neg hl]
    rfl

/-! ### Look-ups -/

/-- A map of ids. -/
structure IdMap (map : Map Bytes Callback) : Prop where
  keyHash : map.keyHash = hashUuid
  keyCmp : map.keyCmp = cmpUuid
  keys : ∀ idx, 1 ≤ (map.data idx).off → 37 ≤ (map.data idx).key.length

variable {map : Map Bytes Callback} {key : CString}

theorem findLoop_ne_range (hm : IdMap map) (hlen : 37 ≤ obj.length) (fuel idx off : ℕ) (hoff : 1 ≤ off) :
    map.findLoop obj fuel idx off ≠ some (.error .range) := by
  induction fuel generalizing idx off with
  | zero => exact fun h => by cases h
  | succ fuel ih =>
    rw [Map.findLoop]
    split_ifs with hle
    · rw [hm.keyCmp, cmpUuid_eq hlen (hm.keys idx (hoff.trans hle))]
      simp only
      split_ifs
      · exact fun h => by cases h
      · exact ih _ _ (Nat.le_succ_of_le hoff)
    · exact fun h => by cases h

/-- A whole id is loaded within its bounds. -/
theorem find_ne_range (hm : IdMap map) (hlen : 37 ≤ obj.length) (h : Hashable obj) :
    map.find obj ≠ some (.error .range) := by
  rw [Map.find]
  split_ifs
  · exact fun h => by cases h
  · obtain ⟨hash, hhash, -⟩ := hashUuid_append h []
    rw [hm.keyHash, hhash]
    exact findLoop_ne_range hm hlen _ _ _ (Nat.le_refl 1)

/-- The access fails as the search does. -/
theorem lookup_range_iff {pop : Bool} :
    lookup map key pop = some (.error .range) ↔ map.find key.terminated = some (.error .range) := by
  cases pop with
  | false =>
    simp only [lookup, Map.get, Bool.false_eq_true, if_false]
    rcases map.find key.terminated with _ | (e | bkt) <;> simp [Except.map]
  | true =>
    simp only [lookup, Map.pop, if_true]
    rcases map.find key.terminated with _ | (e | bkt)
    · simp
    · simp
    · cases map.delBucket bkt <;> simp

/-- A map of one id, with a hash. -/
def oneEntry (id : Bytes) (cb : Callback) (hash : ℕ) : Map Bytes Callback :=
  ⟨hashUuid, cmpUuid, 1, 4, 3, Function.update (fun _ => ⟨0, default, default⟩) (hash &&& 3) ⟨1, id, cb⟩⟩

/-- It is what a client has after its first request. -/
theorem put_init {id : Bytes} {hash : ℕ} (h : hashUuid id = .ok hash) (cb : Callback) :
    (Map.init hashUuid cmpUuid).put id cb = some (.ok (), oneEntry id cb hash) := by
  have hgrow : Map.grow (Map.putDepth 1) (Map.init hashUuid cmpUuid : Map Bytes Callback) =
      some (.ok (Map.fresh (Map.init hashUuid cmpUuid))) := rfl
  have hhash : (Map.fresh (Map.init hashUuid cmpUuid : Map Bytes Callback)).keyHash id = .ok hash := h
  rw [Map.put, Map.putDepth, if_pos (by decide), hgrow]
  simp only [Map.insert, hhash]
  rfl

theorem oneEntry_idMap {id : Bytes} (hid : 37 ≤ id.length) (cb : Callback) (hash : ℕ) :
    IdMap (oneEntry id cb hash) := by
  refine ⟨rfl, rfl, fun idx hoff => ?_⟩
  simp only [oneEntry, Function.update_apply] at hoff ⊢
  split_ifs at hoff ⊢
  · exact hid
  · exact absurd hoff (by decide)

/-- Its one id is compared with a key of the same hash. -/
theorem find_oneEntry {id : Bytes} (cb : Callback) {hash : ℕ} (hhash : hashUuid obj = .ok hash)
    (hcmp : cmpUuid obj id = .error .range) : (oneEntry id cb hash).find obj = some (.error .range) := by
  have hslot : (oneEntry id cb hash).data (hash &&& 3) = ⟨1, id, cb⟩ := by simp [oneEntry]
  have hsize : (oneEntry id cb hash).size ≠ 0 := Nat.one_ne_zero
  have hkeyHash : (oneEntry id cb hash).keyHash obj = .ok hash := hhash
  have hkeyCmp : (oneEntry id cb hash).keyCmp obj id = .error .range := hcmp
  have hmask : (oneEntry id cb hash).hash2idx = 3 := rfl
  rw [Map.find, if_neg hsize]
  simp only [hkeyHash]
  rw [Map.fuel, Map.findLoop, hmask, hslot, if_pos (Nat.le_refl 1)]
  simp only [hkeyCmp]

theorem find_oneEntry_of_hash {id : Bytes} (cb : Callback) {hash : ℕ} (hhash : hashUuid obj = .error .range) :
    (oneEntry id cb hash).find obj = some (.error .range) := by
  have hsize : (oneEntry id cb hash).size ≠ 0 := Nat.one_ne_zero
  have hkeyHash : (oneEntry id cb hash).keyHash obj = .error .range := hhash
  rw [Map.find, if_neg hsize]
  simp only [hkeyHash]

/-- Any other key is loaded out of its bounds in some map. -/
theorem exists_lookup_range (h : ¬ (37 ≤ key.terminated.length ∧ Hashable key.terminated)) :
    ∃ (id : Uuid) (map : Map Bytes Callback),
      (Map.init hashUuid cmpUuid).put id.bytes ⟨0, true⟩ = some (.ok (), map) ∧ IdMap map ∧
        ∀ pop, lookup map key pop = some (.error .range) := by
  by_cases hhash : Hashable key.terminated
  · -- an id that begins like the key, which is too short to be compared
    have hlen : key.terminated.length < 37 := Nat.not_le.mp fun hlen => h ⟨hlen, hhash⟩
    obtain ⟨hash, hkey, hid⟩ := hashUuid_append hhash (List.replicate (37 - key.terminated.length) 0)
    obtain ⟨id, heq⟩ : ∃ id : Uuid, id.bytes = key.terminated ++ List.replicate (37 - key.terminated.length) 0 :=
      ⟨⟨_, by rw [List.length_append, List.length_replicate, Nat.add_sub_cancel' hlen.le]⟩, rfl⟩
    rw [← heq] at hid
    exact ⟨id, _, put_init hid _, oneEntry_idMap id.length_eq.ge _ _,
      fun pop => lookup_range_iff.mpr (find_oneEntry _ hkey (cmpUuid_range (.inl hlen)))⟩
  · obtain ⟨hash, hid⟩ : ∃ hash, hashUuid (default : Uuid).bytes = .ok hash := ⟨_, rfl⟩
    exact ⟨default, _, put_init hid _, oneEntry_idMap (default : Uuid).length_eq.ge _ _,
      fun pop => lookup_range_iff.mpr (find_oneEntry_of_hash _ (hashUuid_range hhash))⟩

/-! ### Clients -/

/-- A request id is looked up only for a response. -/
theorem rpcClientKey_eq (pkt : Packet) : rpcClientKey pkt =
    pure (if pkt.firstHeader "a0_rpc_type" = some (.ofString "response") then
      (pkt.firstHeader "a0_req_id").map fun reqid => (reqid, true) else none) := by
  rw [rpcClientKey, firstHeader_eq, pure_bind]
  cases pkt.firstHeader "a0_rpc_type" with
  | none => rfl
  | some rpctype =>
    simp only [isLiteral_eq, pure_bind, Option.some.injEq]
    by_cases h : rpctype = .ofString "response"
    · simp only [h, decide_true, Bool.not_true, Bool.false_eq_true, if_false, if_true, firstHeader_eq, pure_bind]
      cases pkt.firstHeader "a0_req_id" <;> rfl
    · simp only [h, decide_false, Bool.not_false, if_true, if_false]

theorem prpcClientKey_eq (pkt : Packet) : prpcClientKey pkt =
    pure ((pkt.firstHeader "a0_conn_id").bind fun connId =>
      (pkt.firstHeader "a0_prpc_type").map fun type => (connId, decide (type = .ofString "complete"))) := by
  rw [prpcClientKey, firstHeader_eq, pure_bind]
  cases pkt.firstHeader "a0_conn_id" with
  | none => rfl
  | some connId =>
    simp only [firstHeader_eq, pure_bind]
    cases pkt.firstHeader "a0_prpc_type" with
    | none => rfl
    | some type =>
      simp only [isLiteral_eq, pure_bind]
      rfl

/-- The keys are those of the handlers. -/
theorem clientKey_eq (recv : Received) :
    (∃ c, rpcClientKey recv.pkt = .ok c ∧ Rpc.clientOnpacket recv = c.map fun c => (uuidAt recv.behind c.1, c.2)) ∧
      ∃ c, prpcClientKey recv.pkt = .ok c ∧ Prpc.clientOnpacket recv =
        c.map fun c => (uuidAt recv.behind c.1, c.2) := by
  refine ⟨⟨_, rpcClientKey_eq _, ?_⟩, _, prpcClientKey_eq _, ?_⟩
  · rw [Rpc.clientOnpacket, Rpc.findRpctype, Rpc.findReqid]
    cases recv.pkt.firstHeader "a0_rpc_type" with
    | none => rfl
    | some rpctype =>
      by_cases h : rpctype = .ofString "response"
      · subst h
        cases recv.pkt.firstHeader "a0_req_id" <;> rfl
      · simp [h]
  · rw [Prpc.clientOnpacket]
    cases recv.pkt.firstHeader "a0_conn_id" with
    | none => rfl
    | some connId => cases recv.pkt.firstHeader "a0_prpc_type" <;> rfl

/-- The blocking loop compares the id of any packet that has a type. -/
theorem blockingOnpacket_eq (id : Uuid) (behind : ℕ → UInt8) : blockingOnpacket id pkt =
    if pkt.firstHeader "a0_rpc_type" ≠ none ∧ ∃ reqid, pkt.firstHeader "a0_req_id" = some reqid ∧
      ¬ 37 ≤ reqid.terminated.length
    then .error .range else .ok (Rpc.blockingOnpacket id ⟨pkt, behind⟩) := by
  rw [blockingOnpacket, firstHeader_eq, pure_bind, Rpc.blockingOnpacket, Rpc.findRpctype, Rpc.findReqid]
  cases pkt.firstHeader "a0_rpc_type" with
  | none => rfl
  | some rpctype =>
    simp only [firstHeader_eq, pure_bind]
    cases pkt.firstHeader "a0_req_id" with
    | none => simp; rfl
    | some reqid =>
      by_cases hlen : 37 ≤ reqid.terminated.length
      · have hno : ¬ (some rpctype ≠ none ∧ ∃ reqid', some reqid = some reqid' ∧ ¬ 37 ≤ reqid'.terminated.length) := by
          rintro ⟨-, reqid', heq, hshort⟩
          cases heq
          exact hshort hlen
        have hid : id.bytes.take 37 = id.bytes := List.take_of_length_le id.length_eq.le
        have hreqid : (uuidAt behind reqid).bytes = reqid.terminated.take 37 := List.take_append_of_le_length hlen
        rw [if_neg hno]
        simp only [cmpUuid_eq id.length_eq.ge hlen, hid, ← hreqid, isLiteral_eq]
        show (if _ then _ else _) = _
        split_ifs with hcmp hcancel
        · simp only [hcancel, decide_true, pure_bind, if_true]
          rfl
        · simp only [hcancel, decide_false, pure_bind, if_false, Bool.false_eq_true]
          rfl
        · rfl
      · have hyes : some rpctype ≠ none ∧ ∃ reqid', some reqid = some reqid' ∧ ¬ 37 ≤ reqid'.terminated.length :=
          ⟨Option.some_ne_none _, reqid, rfl, hlen⟩
        rw [if_pos hyes]
        simp only [cmpUuid_range (.inr (Nat.not_le.mp hlen))]
        rfl

/-! ### All handlers -/

/-- The handlers of a packet, and the blocking loop, load nothing out of its bounds, whatever callbacks
there are, and whatever ids a client has outstanding. -/
structure HandlersInBounds (pkt : Packet) : Prop where
  rpcServer : ∀ oncancel, serverOnpacket "a0_rpc_type" "request" oncancel pkt ≠ .error .range
  prpcServer : ∀ oncancel, serverOnpacket "a0_prpc_type" "connect" oncancel pkt ≠ .error .range
  rpcClient : ∀ map, IdMap map → clientOnpacket rpcClientKey map pkt ≠ some (.error .range)
  prpcClient : ∀ map, IdMap map → clientOnpacket prpcClientKey map pkt ≠ some (.error .range)
  blocking : ∀ id, blockingOnpacket id pkt ≠ .error .range

/-- The ids that the handlers load have 36 characters, and those that they look up have ASCII characters
where they are hashed. -/
structure WholeIds (pkt : Packet) : Prop where
  rpcCancel : pkt.firstHeader "a0_rpc_type" = some (.ofString "cancel") → 37 ≤ pkt.payload.length
  prpcCancel : pkt.firstHeader "a0_prpc_type" = some (.ofString "cancel") → 37 ≤ pkt.payload.length
  reqid : ∀ reqid, pkt.firstHeader "a0_rpc_type" ≠ none → pkt.firstHeader "a0_req_id" = some reqid →
    37 ≤ reqid.terminated.length
  response : ∀ reqid, pkt.firstHeader "a0_rpc_type" = some (.ofString "response") →
    pkt.firstHeader "a0_req_id" = some reqid → Hashable reqid.terminated
  connId : ∀ connId, pkt.firstHeader "a0_prpc_type" ≠ none → pkt.firstHeader "a0_conn_id" = some connId →
    37 ≤ connId.terminated.length ∧ Hashable connId.terminated

theorem server_in_bounds_iff (pkt : Packet) (typeKey requestType : String)
    (hne : CString.ofString requestType ≠ .ofString "cancel") :
    (∀ oncancel, serverOnpacket typeKey requestType oncancel pkt ≠ .error .range) ↔
      (pkt.firstHeader typeKey = some (.ofString "cancel") → 37 ≤ pkt.payload.length) := by
  constructor
  · intro h hcancel
    by_contra hlen
    refine h true ?_
    rw [serverOnpacket_eq hne true fun _ => 0, if_pos ⟨hcancel, rfl, Nat.not_le.mp hlen⟩]
  · intro h oncancel
    rw [serverOnpacket_eq hne oncancel fun _ => 0, if_neg fun hshort => Nat.not_lt.mpr (h hshort.1) hshort.2.2]
    exact nofun

theorem client_in_bounds_iff {clientKey : Packet → Except Err (Option (CString × Bool))} {c : Option (CString × Bool)}
    (hc : clientKey pkt = .ok c) :
    (∀ map, IdMap map → clientOnpacket clientKey map pkt ≠ some (.error .range)) ↔
      ∀ key pop, c = some (key, pop) → 37 ≤ key.terminated.length ∧ Hashable key.terminated := by
  constructor
  · rintro h key pop rfl
    by_contra hbad
    obtain ⟨id, map, -, hm, hrange⟩ := exists_lookup_range hbad
    refine h map hm ?_
    rw [clientOnpacket, hc]
    exact hrange pop
  · intro h map hm
    rw [clientOnpacket, hc]
    rcases c with _ | ⟨key, pop⟩
    · exact nofun
    · obtain ⟨hlen, hhash⟩ := h key pop rfl
      exact fun hrange => find_ne_range hm hlen hhash (lookup_range_iff.mp hrange)

theorem blocking_in_bounds_iff (pkt : Packet) : (∀ id, blockingOnpacket id pkt ≠ .error .range) ↔
    ∀ reqid, pkt.firstHeader "a0_rpc_type" ≠ none → pkt.firstHeader "a0_req_id" = some reqid →
      37 ≤ reqid.terminated.length := by
  constructor
  · intro h reqid htype hreqid
    by_contra hlen
    refine h default ?_
    rw [blockingOnpacket_eq default fun _ => 0, if_pos ⟨htype, reqid, hreqid, hlen⟩]
  · intro h id
    rw [blockingOnpacket_eq id fun _ => 0, if_neg fun ⟨htype, reqid, hreqid, hlen⟩ => hlen (h reqid htype hreqid)]
    exact nofun

/-- The handlers stay in bounds if and only if the ids of a packet are whole. -/
theorem handlers_in_bounds_iff (pkt : Packet) : HandlersInBounds pkt ↔ WholeIds pkt := by
  have hrpc := server_in_bounds_iff pkt "a0_rpc_type" "request" (by decide)
  have hprpc := server_in_bounds_iff pkt "a0_prpc_type" "connect" (by decide)
  have hclient := client_in_bounds_iff (rpcClientKey_eq pkt)
  have hpclient := client_in_bounds_iff (prpcClientKey_eq pkt)
  have hblocking := blocking_in_bounds_iff pkt
  constructor
  · intro h
    refine ⟨hrpc.mp h.rpcServer, hprpc.mp h.prpcServer, hblocking.mp h.blocking, fun reqid htype hreqid => ?_,
      fun connId htype hconn => ?_⟩
    · refine (hclient.mp h.rpcClient reqid true ?_).2
      rw [if_pos htype, hreqid]
      rfl
    · obtain ⟨type, htype⟩ := Option.ne_none_iff_exists'.mp htype
      refine hpclient.mp h.prpcClient connId (decide (type = .ofString "complete")) ?_
      rw [hconn, htype]
      rfl
  · intro h
    refine ⟨hrpc.mpr h.rpcCancel, hprpc.mpr h.prpcCancel, hclient.mpr fun key pop heq => ?_,
      hpclient.mpr fun key pop heq => ?_, hblocking.mpr h.reqid⟩
    · split_ifs at heq with htype
      obtain ⟨reqid, hreqid, hkey⟩ := Option.map_eq_some_iff.mp heq
      cases hkey
      exact ⟨h.reqid key (by rw [htype]; exact nofun) hreqid, h.response key htype hreqid⟩
    · obtain ⟨connId, hconn, heq⟩ := Option.bind_eq_some_iff.mp heq
      obtain ⟨type, htype, hkey⟩ := Option.map_eq_some_iff.mp heq
      cases hkey
      exact h.connId key (by rw [htype]; exact nofun) hconn

/-- A cancellation without a payload. -/
def emptyCancel : Packet := ⟨default, [[literalHeader "a0_rpc_type" "cancel"]], []⟩

/-- The server copies 37 bytes from its payload. -/
theorem not_handlers_in_bounds : ¬ HandlersInBounds emptyCancel := by
  intro h
  refine h.rpcServer true ?_
  have htype : emptyCancel.firstHeader "a0_rpc_type" = some (.ofString "cancel") := by
    rw [Packet.firstHeader_eq]
    rfl
  rw [serverOnpacket_eq (by decide) true fun _ => 0, if_pos ⟨htype, rfl, by decide⟩]

end Checked

end AlephZero
