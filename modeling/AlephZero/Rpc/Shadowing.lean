import AlephZero.Rpc.Progress
import AlephZero.Writer.Standard

/-!
# Protocol headers are not shadowed

A packet of the user's goes through a call of the protocol, the standard headers, the codec
and the log, and is looked at by the handler on the other side. Whatever headers it has,
the first header with a key of the protocol is the one that the call has put there, since
each of them puts its headers in front.

## The model

`Served` is what the handler of a server's reader does, up to its callbacks. What a handler
gets is any packet with the contents that `a0_packet_deserialize` gives.

## What is proved

* `Published.unshadowed` — what the handlers find in a packet with the standard headers.
* `Packet.eq_of_contents` — the headers of a packet can be read off its contents.
* **`protocol_unshadowed`** — a call's headers are found by the handler, with the
  user's headers behind them.
-/

namespace AlephZero

open ByteMem StoreProg Prog Transport

/-! ### The handlers of servers -/

/-- What the handler of a server does with a packet. -/
inductive Served where
  /-- It is passed to the callback for requests, or for connections. -/
  | request
  /-- The id in its payload is passed to the callback for cancellations. -/
  | cancel (id : Uuid)
  | ignored
  deriving DecidableEq

/-- The bytes that are copied to an `a0_uuid_t` from a payload, behind which there is
`behind` in memory. -/
def payloadId (payload : List UInt8) (behind : ℕ → UInt8) : Uuid where
  bytes := (payload ++ (List.range 37).map behind).take 37
  length_eq := by simp

/-- The handler of a server: the key of its type, the type of a request, and whether there
is a callback for cancellations. -/
def serverOnpacket (typeKey requestType : String) (oncancel : Bool) (pkt : Packet) (behind : ℕ → UInt8) : Served :=
  match pkt.firstHeader typeKey with
  | none => .ignored
  | some type =>
    if type = .ofString requestType then .request
    else if type = .ofString "cancel" then
      if oncancel then .cancel (payloadId pkt.payload behind) else .ignored
    else .ignored

/-- `a0_rpc_server_onpacket`. -/
def Rpc.serverOnpacket : Bool → Packet → (ℕ → UInt8) → Served := AlephZero.serverOnpacket "a0_rpc_type" "request"

/-- `a0_prpc_server_onpacket`. -/
def Prpc.serverOnpacket : Bool → Packet → (ℕ → UInt8) → Served := AlephZero.serverOnpacket "a0_prpc_type" "connect"

/-! ### The calls -/

/-- A call that writes a packet of the user's. -/
inductive ProtocolCall where
  /-- `a0_rpc_client_send`. -/
  | rpcSend
  /-- `a0_rpc_server_reply`, to a request. -/
  | rpcReply (req : Packet)
  /-- `a0_prpc_client_connect`. -/
  | prpcConnect
  /-- `a0_prpc_server_send`, on the connection of a packet. -/
  | prpcSend (conn : Packet) (done : Bool)

namespace ProtocolCall

/-- The packet that is written. -/
def packet (user : Packet) : ProtocolCall → Packet
  | rpcSend => Rpc.requestPacket user
  | rpcReply req => Rpc.replyPacket req user
  | prpcConnect => Prpc.connectPacket user
  | prpcSend conn done => Prpc.sendPacket conn user done

/-- The key of the type, and the type. -/
def type : ProtocolCall → String × String
  | rpcSend => ("a0_rpc_type", "request")
  | rpcReply _ => ("a0_rpc_type", "response")
  | prpcConnect => ("a0_prpc_type", "connect")
  | prpcSend _ done => ("a0_prpc_type", if done then "complete" else "progress")

/-- The key of the id, and the id, if the call names one. -/
def names : ProtocolCall → Option (String × Uuid)
  | rpcSend | prpcConnect => none
  | rpcReply req => some ("a0_req_id", req.id)
  | prpcSend conn _ => some ("a0_conn_id", conn.id)

/-- What the receiving handler does with a packet, up to its map or its callback. -/
def Handled (q : Packet) : ProtocolCall → Prop
  | rpcSend => ∀ oncancel behind, Rpc.serverOnpacket oncancel q behind = .request
  | rpcReply req => ∀ behind, Rpc.clientOnpacket ⟨q, behind⟩ = some (uuidAt behind req.id.text, true)
  | prpcConnect => ∀ oncancel behind, Prpc.serverOnpacket oncancel q behind = .request
  | prpcSend conn done => ∀ behind, Prpc.clientOnpacket ⟨q, behind⟩ = some (uuidAt behind conn.id.text, done)

end ProtocolCall

/-- The handler finds in `q` what the call has put there, and the user's headers are all
there, in their order. -/
structure Unshadowed (call : ProtocolCall) (user q : Packet) : Prop where
  type : q.firstHeader call.type.1 = some (.ofString call.type.2)
  id : ∀ key id, call.names = some (key, id) → q.firstHeader key = some id.text ∧
    ∀ s : CString, id.bytes = s.terminated → ∀ behind, uuidAt behind id.text = id
  handled : call.Handled q
  user : ∃ front, q.headers = front ++ user.headers

variable {call : ProtocolCall} {user q : Packet}

/-- The first header is in front of all others with its key. -/
theorem Packet.firstHeader_withHeaders (key : String) (val : CString) (hdrs : List PacketHeader) (pkt : Packet) :
    (pkt.withHeaders (⟨.ofString key, val⟩ :: hdrs)).firstHeader key = some val := by
  have hheaders : (pkt.withHeaders (⟨.ofString key, val⟩ :: hdrs)).headers =
      ⟨.ofString key, val⟩ :: (hdrs ++ pkt.headers) := rfl
  rw [firstHeader_eq, hheaders, List.find?_cons_of_pos (by exact decide_eq_true rfl)]
  rfl

/-- A header with another key is passed over. -/
theorem Packet.firstHeader_withHeaders_of_ne {key : String} {hdr : PacketHeader} (hdrs : List PacketHeader)
    (pkt : Packet) (hne : .ofString key ≠ hdr.key) :
    (pkt.withHeaders (hdr :: hdrs)).firstHeader key = (pkt.withHeaders hdrs).firstHeader key := by
  have hheaders : (pkt.withHeaders (hdr :: hdrs)).headers = hdr :: (pkt.withHeaders hdrs).headers := rfl
  rw [firstHeader_eq, firstHeader_eq, hheaders, List.find?_cons_of_neg (by simpa using hne)]

/-- The call puts its type in front. -/
theorem ProtocolCall.type_packet (call : ProtocolCall) (user : Packet) :
    (call.packet user).firstHeader call.type.1 = some (.ofString call.type.2) := by
  cases call with
  | rpcSend | rpcReply | prpcConnect | prpcSend => exact Packet.firstHeader_withHeaders _ _ _ user

/-- It puts its id behind the type. -/
theorem ProtocolCall.id_packet (user : Packet) {key : String} {id : Uuid} (h : call.names = some (key, id)) :
    (call.packet user).firstHeader key = some id.text := by
  cases call with
  | rpcSend | prpcConnect => cases h
  | rpcReply =>
    cases h
    have hne : CString.ofString "a0_req_id" ≠ .ofString "a0_rpc_type" := by decide +kernel
    exact (Packet.firstHeader_withHeaders_of_ne _ user hne).trans (Packet.firstHeader_withHeaders _ _ _ user)
  | prpcSend =>
    cases h
    have hne : CString.ofString "a0_conn_id" ≠ .ofString "a0_prpc_type" := by decide +kernel
    exact (Packet.firstHeader_withHeaders_of_ne _ user hne).trans (Packet.firstHeader_withHeaders _ _ _ user)

/-- The keys of the protocol are not those of the standard headers. -/
theorem ProtocolCall.type_notMem (call : ProtocolCall) : .ofString call.type.1 ∉ standardKeys := by
  cases call with
  | rpcSend | rpcReply => exact (by decide +kernel : .ofString "a0_rpc_type" ∉ standardKeys)
  | prpcConnect | prpcSend => exact (by decide +kernel : .ofString "a0_prpc_type" ∉ standardKeys)

theorem ProtocolCall.id_notMem {key : String} {id : Uuid} (h : call.names = some (key, id)) :
    .ofString key ∉ standardKeys := by
  cases call with
  | rpcSend | prpcConnect => cases h
  | rpcReply | prpcSend =>
    cases h
    decide +kernel

/-- An id that is a string with its null byte is read back from a header. -/
theorem uuidAt_text {id : Uuid} {s : CString} (h : id.bytes = s.terminated) (behind : ℕ → UInt8) :
    uuidAt behind id.text = id := by
  rw [uuidAt_eq h]
  apply CString.ext
  have hs := s.takeWhile_terminated []
  rw [List.append_nil] at hs
  rw [Uuid.text, h]
  exact hs

/-! ### What the handlers find -/

theorem serverOnpacket_request {typeKey requestType : String} (oncancel : Bool) (behind : ℕ → UInt8)
    (h : q.firstHeader typeKey = some (.ofString requestType)) :
    serverOnpacket typeKey requestType oncancel q behind = .request := by
  rw [serverOnpacket, h]
  exact if_pos rfl

/-- **What the handlers find** in a packet with the standard headers. -/
theorem Published.unshadowed (h : Published (call.packet user) q) : Unshadowed call user q := by
  have htype := (h.firstHeader_eq call.type_notMem).trans (call.type_packet user)
  have hid : ∀ key id, call.names = some (key, id) → q.firstHeader key = some id.text := by
    intro key id hnames
    exact (h.firstHeader_eq (ProtocolCall.id_notMem hnames)).trans (ProtocolCall.id_packet user hnames)
  constructor
  · exact htype
  · intro key id hnames
    exact ⟨hid key id hnames, fun s hs behind => uuidAt_text hs behind⟩
  · cases call with
    | rpcSend | prpcConnect =>
      intro oncancel behind
      exact serverOnpacket_request oncancel behind htype
    | rpcReply req =>
      intro behind
      rw [Rpc.clientOnpacket_eq_some]
      exact ⟨htype, ⟨_, hid _ _ rfl, rfl⟩, rfl⟩
    | prpcSend conn done =>
      intro behind
      rw [Prpc.clientOnpacket_eq_some]
      refine ⟨⟨_, hid _ _ rfl, rfl⟩, _, htype, ?_⟩
      cases done with
      | true => exact decide_eq_true rfl
      | false => exact decide_eq_false (by decide +kernel : CString.ofString "progress" ≠ .ofString "complete")
  · obtain ⟨std, -, hheaders⟩ := h.headers
    have hpacket : ∃ front, (call.packet user).headers = front ++ user.headers := by
      cases call with
      | rpcSend | rpcReply | prpcConnect | prpcSend => exact ⟨_, rfl⟩
    obtain ⟨front, hfront⟩ := hpacket
    exact ⟨std ++ front, by rw [hheaders, hfront, List.append_assoc]⟩

/-! ### What is deserialized -/

theorem PacketHeader.contents_injective : Function.Injective PacketHeader.contents := by
  rintro ⟨key, val⟩ ⟨key', val'⟩ h
  obtain ⟨hkey, hval⟩ := Prod.mk.inj h
  rw [PacketHeader.mk.injEq]
  exact ⟨CString.ext hkey, CString.ext hval⟩

/-- A packet can be read off its contents, but for its blocks. -/
theorem Packet.eq_of_contents {pkt : Packet} (h : q.contents = pkt.contents) :
    q.id = pkt.id ∧ q.headers = pkt.headers ∧ q.payload = pkt.payload := by
  rw [contents_eq, contents_eq, PacketContents.mk.injEq] at h
  obtain ⟨hid, hheaders, hpayload⟩ := h
  refine ⟨?_, List.map_injective_iff.mpr PacketHeader.contents_injective hheaders, hpayload⟩
  cases hq : q.id
  cases hpkt : pkt.id
  rw [hq, hpkt] at hid
  cases hid
  rfl

theorem published_stamped {pkt : Packet} {s : Stamp} (h : q.contents = (pkt.stamped s).contents) :
    Published pkt q := by
  obtain ⟨hid, hheaders, hpayload⟩ := Packet.eq_of_contents h
  exact ⟨hid, ⟨s.headers, rfl, hheaders⟩, hpayload⟩

variable {Val : Type} {json : Yyjson Val} {mode mode' : ArenaMode} {out : Buf} {h : Host} {id : CString} {data : ℕ}

/-- **A call's headers are not shadowed**: whatever packet the user passes to the call,
it is written to the log with A0_OK, if it fits; and whenever its frame is deserialized,
with any allocator, the handler finds the type and the id of the call first, and all of
the user's headers, in their order. -/
theorem protocol_unshadowed (call : ProtocolCall) (user : Packet) (hmode' : mode' ≠ .readonly)
    (hm : Reachable mode' h.mem) (hq : (workingState h.mem).seqHigh + 2 < 2 ^ 64)
    (hsize : ∀ pkt, outcome json mode (standardWriter id data).leaves h (call.packet user) = .append pkt →
      pkt.stats.serialSize < 2 ^ 63)
    (hfits : Fits mode h.mem (outcome json mode (standardWriter id data).leaves h (call.packet user))) :
    (writerWrite json mode out (standardWriter id data) (call.packet user)).eval h = .ok ∧
    ∃ seq bytes, (seenLog mode ((writerWrite json mode out (standardWriter id data) (call.packet user)).exec
        h).mem).getLast? = some (seq, bytes) ∧
      ∀ (m : Mem) (fpkt buf out : Buf) (alloc : Alloc) (n : ℕ), m.At fpkt.data bytes → fpkt.size = bytes.length →
        n = (flatStats m fpkt).numHdrs * 16 + (flatStats m fpkt).contentSize → Gives alloc m n buf →
        ((alloc n).exec m).At fpkt.data bytes → fpkt.Apart buf.data buf.size →
        ∃ ref, (deserialize fpkt alloc out).eval m = some (ref, buf) ∧
          (∃ q : Packet, ref.contents ((deserialize fpkt alloc out).exec m) = some q.contents) ∧
          ∀ q : Packet, ref.contents ((deserialize fpkt alloc out).exec m) = some q.contents →
            Unshadowed call user q := by
  obtain ⟨n, C, X, q, h₀⟩ := hm.ready hmode'
  rw [h₀.seqHigh_eq] at hq
  obtain ⟨s, hok, hlen, seq, hlast⟩ := standard_written out h₀ hq hsize hfits
  refine ⟨hok, seq, _, hlast, ?_⟩
  rintro m fpkt buf out alloc _ hat hfpkt rfl hgives hkeep hap
  have hspace : ((call.packet user).stamped s).wire.length < addressSpace := by
    rw [addressSpace]
    omega
  rw [Packet.flatStats_eq hat hfpkt hspace] at hgives hkeep
  obtain ⟨href, hcontents, -⟩ := Packet.deserialize_spec out hat hfpkt hspace hgives hkeep hap
  refine ⟨_, href, ⟨_, hcontents⟩, ?_⟩
  intro q hq
  rw [hcontents, Option.some.injEq] at hq
  exact (published_stamped hq.symm).unshadowed

/-- A packet whose own headers say that it is a response to another request. -/
def disguised : Packet :=
  ⟨Prpc.someId, [[literalHeader "a0_rpc_type" "response", literalHeader "a0_req_id" "b"]], [7]⟩

/-- It is sent as a request, on a new arena of 1000 bytes. -/
theorem protocol_unshadowed_disguised :
    (writerWrite noJson .shared ⟨5000, 0⟩ (standardWriter (.ofString "w") 0) (ProtocolCall.rpcSend.packet
      disguised)).eval fresh = .ok := by
  have hshared : ArenaMode.shared ≠ .readonly := by decide
  have hlock : Ready ((lock .shared).exec fresh.mem) 1000 [] [] 0 := post_of_wpc (lock_mode .shared fresh_ready)
  have hzero : seqText 0 = some (.ofString "0") := by decide +kernel
  have hhigh : seqText (workingState ((lock .shared).exec fresh.mem)).seqHigh = some (.ofString "0") := by
    rw [hlock.seqHigh_eq]
    exact hzero
  have ho := outcome_standard_eq noJson (.ofString "w") (ProtocolCall.rpcSend.packet disguised)
    (show seqText (fresh.heap 0) = some (.ofString "0") from hzero) hhigh
  have hsize : ((ProtocolCall.rpcSend.packet disguised).stamped
      ⟨.ofString "0", .ofString "0", .ofString "0", .ofString "w", .ofString "0"⟩).stats.serialSize < 816 := by
    decide +kernel
  refine (protocol_unshadowed .rpcSend disguised hshared ⟨1000, [], by decide, by decide, fresh_mem⟩ ?_ ?_ ?_).1
  · rw [fresh_ready.seqHigh_eq]
    norm_num
  · rw [ho]
    rintro _ ⟨⟩
    exact hsize.trans (by norm_num)
  · rw [ho]
    refine ⟨hshared, ?_⟩
    rw [fresh_ready.arenaSize_eq]
    exact (Nat.add_lt_add_left hsize 184).le

end AlephZero
