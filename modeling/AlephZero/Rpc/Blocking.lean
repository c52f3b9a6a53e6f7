import AlephZero.Rpc.Once

/-!
# Blocking requests

`a0_rpc_client_send_blocking` waits for the reply with a reader of its own, beside the reader
that dispatches the replies of the client.

## What is proved

* `blockingOnpacket_eq` — what the loop makes of a packet depends on the type of a packet that
  carries the id.
* `dispatchedTo_eq` — the first packet that the client's handler dispatches to the callback of
  an id.
* **`blocking_agrees_iff`** — the loop returns the packet that would be dispatched, unless it is
  cancelled before, if and only if the first packet that carries the id is a response or a
  cancellation.
-/

namespace AlephZero

open Dispatch ClientRun

namespace Rpc

/-! ### The loop -/

/-- The loop of `a0_rpc_client_send_blocking_timeout`, on one packet; `none` if it goes on. -/
def blockingOnpacket (id : Uuid) (recv : Received) : Option (Except Err Packet) :=
  match findRpctype recv.pkt with
  | none => none
  | some rpctype =>
    match findReqid recv.pkt with
    | none => none
    | some reqid =>
      if memcmp id.bytes (uuidAt recv.behind reqid).bytes = 0 then
        if rpctype = .ofString "cancel" then some (.error .cancelled) else some (.ok recv.pkt)
      else none

/-- The loop, on what its reader returns; `none` if it still waits. -/
def blockingLoop (id : Uuid) : List (Except Err Received) → Option (Except Err Packet)
  | [] => none
  | .error err :: _ => some (.error err)
  | .ok recv :: reads => (blockingOnpacket id recv).or (blockingLoop id reads)

/-! ### What should be returned -/

/-- The first packet that `a0_rpc_client_onpacket` dispatches to a callback, from a map on. -/
def dispatchedTo (cb : Callback) (map : Map Uuid Callback) : List Received → Option Received
  | [] => none
  | recv :: recvs =>
    match clientOnpacket recv with
    | none => dispatchedTo cb map recvs
    | some (key, pop) =>
      match lookupCallback map key pop with
      | none => none
      | some (.error _, map) => dispatchedTo cb map recvs
      | some (.ok found, map) => if found = cb then some recv else dispatchedTo cb map recvs

/-- The type of a packet whose first request id is `id`. -/
def carriedType (id : Uuid) (recv : Received) : Option CString :=
  match findRpctype recv.pkt, findReqid recv.pkt with
  | some rpctype, some reqid => if uuidAt recv.behind reqid = id then some rpctype else none
  | _, _ => none

/-- A cancellation of the request. -/
def isCancel (id : Uuid) (recv : Received) : Bool := carriedType id recv = some (.ofString "cancel")

/-- The packet that is dispatched before the first cancellation, else that cancellation. -/
def expectedReply (dispatched : List Received → Option Received) (id : Uuid) (recvs : List Received) :
    Option (Except Err Packet) :=
  match dispatched (recvs.takeWhile fun recv => !isCancel id recv) with
  | some recv => some (.ok recv.pkt)
  | none => if recvs.any (isCancel id) then some (.error .cancelled) else none

/-! ### The two filters -/

variable {id : Uuid} {recv : Received} {recvs : List Received}

/-- The loop looks at the type only for a cancellation. -/
theorem blockingOnpacket_eq : blockingOnpacket id recv = (carriedType id recv).map fun rpctype =>
    if rpctype = .ofString "cancel" then .error .cancelled else .ok recv.pkt := by
  have hcmp : ∀ key : Uuid, memcmp id.bytes key.bytes = 0 ↔ key = id := fun key => by
    rw [← Except.ok.injEq, ← cmpUuid, cmpUuid_eq_zero, eq_comm]
  rw [blockingOnpacket, carriedType]
  cases findRpctype recv.pkt with
  | none => rfl
  | some rpctype =>
    cases findReqid recv.pkt with
    | none => rfl
    | some reqid =>
      simp only [hcmp]
      split_ifs with hid hcancel
      · simp [hcancel]
      · simp [hcancel]
      · rfl

/-- The handler dispatches responses alone. -/
theorem clientOnpacket_eq_carriedType :
    clientOnpacket recv = some (id, true) ↔ carriedType id recv = some (.ofString "response") := by
  rw [clientOnpacket_eq_some, carriedType]
  cases findRpctype recv.pkt with
  | none => simp
  | some rpctype =>
    cases findReqid recv.pkt with
    | none => simp
    | some reqid =>
      by_cases h : uuidAt recv.behind reqid = id
      · simp [h]
      · simp [h]

theorem pkt_type_of_carriedType {rpctype : CString} (h : carriedType id recv = some rpctype) :
    findRpctype recv.pkt = some rpctype := by
  rw [carriedType] at h
  split at h
  · rename_i heq _
    split_ifs at h
    rw [heq, Option.some.inj h]
  · cases h

/-- A callback that is registered under `id` alone gets the first response to it. -/
theorem dispatchedTo_eq {table : ℕ → UInt8} {map : Map Uuid Callback} {e : Uuid → Option Callback} {cb : Callback}
    (hmap : map.Represents (hashUuid table) cmpUuid e) (hcb : e id = some cb)
    (hsole : ∀ key, e key = some cb → key = id)
    (recvs : List Received) :
    dispatchedTo cb map recvs = recvs.find? fun recv => carriedType id recv = some (.ofString "response") := by
  induction recvs generalizing map e with
  | nil => rfl
  | cons recv recvs ih =>
    rw [dispatchedTo, List.find?_cons]
    cases hkey : clientOnpacket recv with
    | none =>
      have hno : carriedType id recv ≠ some (.ofString "response") := by
        rw [Ne, ← clientOnpacket_eq_carriedType, hkey]
        exact nofun
      rw [decide_eq_false hno]
      exact ih hmap hcb hsole
    | some c =>
      obtain ⟨key, pop⟩ := c
      obtain ⟨-, -, rfl⟩ := clientOnpacket_eq_some.mp hkey
      obtain ⟨map', hpop, hmap'⟩ := Map.pop_represents uuidExact hmap key
      simp only [lookupCallback, if_true, hpop]
      by_cases hk : key = id
      · subst hk
        rw [hcb, decide_eq_true (clientOnpacket_eq_carriedType.mp hkey)]
        exact if_pos rfl
      · have hno : carriedType id recv ≠ some (.ofString "response") := by
          rw [Ne, ← clientOnpacket_eq_carriedType, hkey]
          simp [hk]
        have hrest := ih hmap' (by rw [Function.update_of_ne (Ne.symm hk), hcb]) fun key' h => by
          rw [Function.update_apply] at h
          split_ifs at h
          exact hsole key' h
        rw [decide_eq_false hno]
        cases hfound : e key with
        | none => exact hrest
        | some found =>
          have hne : found ≠ cb := by
            rintro rfl
            exact hk (hsole key hfound)
          exact (if_neg hne).trans hrest

/-- What the loop returns is what is expected as long as the first packet that carries the id is
of one of the two types that end it. -/
theorem blockingLoop_iff (recvs : List Received) :
    blockingLoop id (recvs.map .ok) =
        expectedReply (List.find? fun recv => carriedType id recv = some (.ofString "response")) id recvs ↔
      ∀ rpctype, recvs.findSome? (carriedType id) = some rpctype →
        rpctype = .ofString "response" ∨ rpctype = .ofString "cancel" := by
  induction recvs with
  | nil => simp [blockingLoop, expectedReply]
  | cons recv recvs ih =>
    rw [List.map_cons, blockingLoop, blockingOnpacket_eq, List.findSome?_cons]
    cases htype : carriedType id recv with
    | none =>
      -- both go on
      have hcancel : isCancel id recv = false := by simp [isCancel, htype]
      have hrest :
          expectedReply (List.find? fun recv => carriedType id recv = some (.ofString "response")) id (recv :: recvs) =
          expectedReply (List.find? fun recv => carriedType id recv = some (.ofString "response")) id recvs := by
        simp [expectedReply, hcancel, htype]
      rw [hrest]
      exact ih
    | some rpctype =>
      simp only [Option.map_some, Option.some_or, Option.some.injEq, forall_eq']
      by_cases hcancel : rpctype = .ofString "cancel"
      · have h : isCancel id recv = true := by simp [isCancel, htype, hcancel]
        simp [expectedReply, h, hcancel]
      have h : isCancel id recv = false := by simp [isCancel, htype, hcancel]
      rw [if_neg hcancel, or_iff_left hcancel]
      constructor
      · intro heq
        -- what is expected has the type of a response
        have hfound : ∃ recv', carriedType id recv' = some (.ofString "response") ∧ recv.pkt = recv'.pkt := by
          rw [expectedReply] at heq
          split at heq
          · rename_i recv' hfind
            exact ⟨recv', by simpa using List.find?_some hfind, by simpa using heq⟩
          · split_ifs at heq
            cases heq
        obtain ⟨recv', hresponse, hpkt⟩ := hfound
        have htype' := pkt_type_of_carriedType htype
        rw [hpkt, pkt_type_of_carriedType hresponse] at htype'
        exact (Option.some.inj htype').symm
      · rintro rfl
        simp [expectedReply, h, htype]

/-- Blocking and asynchronous requests accept the same replies, if and only if the first packet that
carries the id is a response or a cancellation. -/
theorem blocking_agrees_iff {table : ℕ → UInt8} {map : Map Uuid Callback} {e : Uuid → Option Callback} {cb : Callback}
    (hmap : map.Represents (hashUuid table) cmpUuid e) (hcb : e id = some cb)
    (hsole : ∀ key, e key = some cb → key = id)
    (recvs : List Received) :
    blockingLoop id (recvs.map .ok) = expectedReply (dispatchedTo cb map) id recvs ↔
      ∀ rpctype, recvs.findSome? (carriedType id) = some rpctype →
        rpctype = .ofString "response" ∨ rpctype = .ofString "cancel" := by
  have hdispatched : dispatchedTo cb map =
      List.find? fun recv => carriedType id recv = some (.ofString "response") :=
    funext (dispatchedTo_eq hmap hcb hsole)
  rw [hdispatched]
  exact blockingLoop_iff recvs

/-! ### A request among the packets -/

section Stray

theorem length_waiting : (List.replicate 36 (97 : UInt8) ++ [0]).length = 37 := rfl

/-- The id of the request that waits. -/
def waiting : Uuid := ⟨List.replicate 36 97 ++ [0], length_waiting⟩

/-- The map of a client that has made the request. -/
theorem exists_waiting : ∃ (map : Map Uuid Callback) (e : Uuid → Option Callback),
    map.Represents (hashUuid fun _ => 0) cmpUuid e ∧ e waiting = some ⟨0, true⟩ ∧
      ∀ key, e key = some ⟨0, true⟩ → key = waiting := by
  have hexact : Map.Exact (hashUuid fun _ => 0) cmpUuid := uuidExact
  obtain ⟨map, -, hmap⟩ := Map.put_represents hexact Map.init_represents waiting (⟨0, true⟩ : Callback)
  refine ⟨map, _, hmap, Function.update_self .., fun key h => ?_⟩
  by_contra hne
  rw [Function.update_of_ne hne] at h
  cases h

/-- A reply to the request. -/
def reply : Received := ⟨replyPacket ⟨waiting, [], []⟩ ⟨waiting, [], [1]⟩, fun _ => 0⟩

/-- A request of another client, which has a header with the id of the first one. -/
def strayRequest : Received := ⟨requestPacket ⟨waiting, [[idHeader "a0_req_id" waiting]], []⟩, fun _ => 0⟩

theorem carriedType_reply : carriedType waiting reply = some (.ofString "response") := by
  rw [carriedType, findRpctype, findReqid, Packet.firstHeader_eq, Packet.firstHeader_eq]
  rfl

theorem carriedType_strayRequest : carriedType waiting strayRequest = some (.ofString "request") := by
  rw [carriedType, findRpctype, findReqid, Packet.firstHeader_eq, Packet.firstHeader_eq]
  rfl

/-- One reply. -/
theorem blocking_agrees_iff_reply : ∃ (map : Map Uuid Callback) (cb : Callback),
    blockingLoop waiting [.ok reply] = expectedReply (dispatchedTo cb map) waiting [reply] := by
  obtain ⟨map, e, hmap, hcb, hsole⟩ := exists_waiting
  refine ⟨map, _, (blocking_agrees_iff hmap hcb hsole [reply]).mpr fun rpctype h => ?_⟩
  rw [List.findSome?_cons, carriedType_reply] at h
  exact .inl (Option.some.inj h).symm

/-- The blocking call returns the other request as its reply, which the handler does not dispatch. -/
theorem not_blocking_agrees : ∃ (map : Map Uuid Callback) (cb : Callback) (e : Uuid → Option Callback),
    map.Represents (hashUuid fun _ => 0) cmpUuid e ∧ e waiting = some cb ∧ (∀ key, e key = some cb → key = waiting) ∧
      blockingLoop waiting [.ok strayRequest] = some (.ok strayRequest.pkt) ∧
      expectedReply (dispatchedTo cb map) waiting [strayRequest] = none := by
  obtain ⟨map, e, hmap, hcb, hsole⟩ := exists_waiting
  refine ⟨map, _, e, hmap, hcb, hsole, ?_, ?_⟩
  · rw [blockingLoop, blockingOnpacket_eq, carriedType_strayRequest]
    rfl
  · rw [funext (dispatchedTo_eq hmap hcb hsole)]
    have hcancel : isCancel waiting strayRequest = false := by
      rw [isCancel, carriedType_strayRequest]
      decide
    have hno : carriedType waiting strayRequest ≠ some (.ofString "response") := by
      rw [carriedType_strayRequest]
      decide
    simp [expectedReply, hcancel, hno]

end Stray

end Rpc

end AlephZero
