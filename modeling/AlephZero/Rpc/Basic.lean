import AlephZero.Cmp
import AlephZero.Map.Basic
import AlephZero.Packet.Headers

/-!
# Remote procedure calls

`rpc.c` and `prpc.c`: the packets that clients and servers write, and the handlers of the
client's readers.

## The model

A callback is given by the number of the call that has passed it, and by whether its
function pointer is not null. A handler is what it does up to the mutex, its access to the
map, which it makes under the mutex, and its call of the callback, after the mutex. What it
reads as an id may go on behind the header's value: `behind` is what the memory holds there.
-/

namespace AlephZero

/-- A packet that a reader has given to a handler. -/
structure Received where
  pkt : Packet
  /-- The memory behind the value of the header that holds an id. -/
  behind : ℕ → UInt8

/-- The bytes that are read as an `a0_uuid_t` where a string is. -/
def uuidAt (behind : ℕ → UInt8) (val : CString) : Uuid where
  bytes := (val.terminated ++ (List.range 37).map behind).take 37
  length_eq := by simp

/-- An id as a header has it. -/
def Uuid.text (id : Uuid) : CString := .ofBytes id.bytes

/-- A callback: the call that has passed it, and whether there is a function. -/
structure Callback where
  call : ℕ
  fn : Bool
  deriving DecidableEq

instance : Inhabited Callback := ⟨⟨0, false⟩⟩
instance : Inhabited Uuid := ⟨⟨List.replicate 37 0, rfl⟩⟩

/-- A header of string literals. -/
def literalHeader (key val : String) : PacketHeader := ⟨.ofString key, .ofString val⟩

/-- A header that holds an id. -/
def idHeader (key : String) (id : Uuid) : PacketHeader := ⟨.ofString key, id.text⟩

/-- A packet with a block of headers in front. -/
def Packet.withHeaders (hdrs : List PacketHeader) (pkt : Packet) : Packet :=
  { pkt with headersBlock := hdrs :: pkt.headersBlock }

/-- What a handler reads under the mutex, by `a0_map_pop` or `a0_map_get`. -/
def lookupCallback (map : Map Uuid Callback) (id : Uuid) (pop : Bool) :
    Option (Except Err Callback × Map Uuid Callback) :=
  if pop then map.pop id else (map.get id).map fun r => (r, map)

namespace Rpc

/-- The packet that `a0_rpc_client_send` writes. -/
def requestPacket (pkt : Packet) : Packet := pkt.withHeaders [literalHeader "a0_rpc_type" "request"]

/-- The packet that `a0_rpc_server_reply` writes. -/
def replyPacket (req resp : Packet) : Packet :=
  resp.withHeaders [literalHeader "a0_rpc_type" "response", idHeader "a0_req_id" req.id, idHeader "a0_dep" req.id]

/-- The packet that `a0_rpc_client_cancel` writes, with the id it gets. -/
def cancelPacket (id uuid : Uuid) : Packet :=
  ⟨id, [[literalHeader "a0_rpc_type" "cancel", idHeader "a0_req_id" uuid, idHeader "a0_dep" uuid]], uuid.bytes⟩

/-- `a0_find_rpctype`. -/
def findRpctype (pkt : Packet) : Option CString := pkt.firstHeader "a0_rpc_type"

/-- `a0_find_reqid`. -/
def findReqid (pkt : Packet) : Option CString := pkt.firstHeader "a0_req_id"

/-- `a0_rpc_client_onpacket`, up to its mutex: the id of the request, which it pops. -/
def clientOnpacket (recv : Received) : Option (Uuid × Bool) :=
  match findRpctype recv.pkt with
  | none => none
  | some rpctype =>
    if rpctype ≠ .ofString "response" then none
    else (findReqid recv.pkt).map fun reqid => (uuidAt recv.behind reqid, true)

end Rpc

namespace Prpc

/-- The packet that `a0_prpc_client_connect` writes. -/
def connectPacket (pkt : Packet) : Packet := pkt.withHeaders [literalHeader "a0_prpc_type" "connect"]

/-- The packet that `a0_prpc_server_send` writes. -/
def sendPacket (conn resp : Packet) (done : Bool) : Packet :=
  resp.withHeaders [literalHeader "a0_prpc_type" (if done then "complete" else "progress"),
    idHeader "a0_conn_id" conn.id, idHeader "a0_dep" conn.id]

/-- The packet that `a0_prpc_client_cancel` writes, with the id it gets. -/
def cancelPacket (id uuid : Uuid) : Packet :=
  ⟨id, [[literalHeader "a0_prpc_type" "cancel", idHeader "a0_conn_id" uuid, idHeader "a0_dep" uuid]], uuid.bytes⟩

/-- `a0_prpc_client_onpacket`, up to its mutex: the id of the connection, and whether it
pops it. -/
def clientOnpacket (recv : Received) : Option (Uuid × Bool) :=
  match recv.pkt.firstHeader "a0_conn_id" with
  | none => none
  | some connId =>
    match recv.pkt.firstHeader "a0_prpc_type" with
    | none => none
    | some type => some (uuidAt recv.behind connId, type = .ofString "complete")

end Prpc

end AlephZero
