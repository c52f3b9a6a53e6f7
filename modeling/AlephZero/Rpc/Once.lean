import AlephZero.Rpc.Run

/-!
# Responses are dispatched once

The client of `rpc.c`, on any traffic: what other clients and servers write, and what is
no packet of the protocol at all.

## What is proved

* `uuidAt_eq` — an id that is read at a header is the id that the header has.
* `clientOnpacket_eq_some` — what the handler takes for a response.
* **`responses_dispatched_once`** — a callback is called at most once, with a response to its
  own request that is handled while the request is outstanding; and it is called then.
-/

namespace AlephZero

open Dispatch ClientRun

/-- A string ends at its null byte. -/
theorem CString.takeWhile_terminated (s : CString) (t : List UInt8) :
    (s.terminated ++ t).takeWhile (· ≠ 0) = s.bytes := by
  have hpos : ∀ b ∈ s.bytes, decide (b ≠ 0) = true := fun b hb =>
    decide_eq_true fun hz => s.nonNull (hz ▸ hb)
  rw [terminated, List.append_assoc, List.takeWhile_append_of_pos hpos]
  simp

/-- An id that is read at a string is the one that the string has. -/
theorem uuidAt_eq {behind : ℕ → UInt8} {val s : CString} {id : Uuid} (hid : id.bytes = s.terminated) :
    uuidAt behind val = id ↔ val = s := by
  obtain ⟨bs, hlen⟩ := id
  obtain rfl : bs = s.terminated := hid
  have hs : s.terminated.takeWhile (· ≠ 0) = s.bytes := by
    have h := s.takeWhile_terminated []
    rwa [List.append_nil] at h
  constructor
  · intro h
    have h : (val.terminated ++ (List.range 37).map behind).take 37 = s.terminated := congrArg Uuid.bytes h
    by_cases hle : val.terminated.length ≤ 37
    · -- the null byte of the header is among the bytes that are read
      rw [List.take_append, List.take_of_length_le hle] at h
      refine CString.ext ?_
      rw [← hs, ← h, CString.takeWhile_terminated]
    · have hmem : (0 : UInt8) ∈ (val.terminated ++ (List.range 37).map behind).take 37 := by
        rw [h, CString.terminated]
        simp
      rw [CString.terminated, List.length_append, List.length_singleton] at hle
      rw [CString.terminated, List.append_assoc, List.take_append_of_le_length (by omega)] at hmem
      exact absurd (List.mem_of_mem_take hmem) val.nonNull
  · rintro rfl
    rw [uuidAt, Uuid.mk.injEq, List.take_append_of_le_length hlen.ge]
    exact List.take_of_length_le hlen.le

namespace Rpc

/-- What the handler takes for a response, and to which request. -/
theorem clientOnpacket_eq_some {recv : Received} {id : Uuid} {pop : Bool} :
    clientOnpacket recv = some (id, pop) ↔ findRpctype recv.pkt = some (.ofString "response") ∧
      (∃ reqid, findReqid recv.pkt = some reqid ∧ uuidAt recv.behind reqid = id) ∧ pop = true := by
  rw [clientOnpacket]
  cases findRpctype recv.pkt with
  | none => simp
  | some rpctype =>
    simp only [ne_eq, ite_not, Option.some.injEq]
    split_ifs with h
    · rw [Option.map_eq_some_iff]
      simp only [Prod.mk.injEq, h, true_and]
      constructor
      · rintro ⟨reqid, hreq, hid, rfl⟩
        exact ⟨⟨reqid, hreq, hid⟩, rfl⟩
      · rintro ⟨⟨reqid, hreq, hid⟩, rfl⟩
        exact ⟨reqid, hreq, hid, rfl⟩
    · simp [h]

/-- The client, on any traffic. -/
def protocol : Protocol Unit := ⟨clientOnpacket, fun _ _ => True, true⟩

/-- How the callbacks of requests are called. -/
structure DispatchedOnce (σ : ClientRun Unit) : Prop where
  /-- At most once. -/
  once : (σ.invocations.map Invocation.cb).Nodup
  /-- With a packet whose first type is that of a response, and whose first request id is
  that of the request. -/
  response : ∀ c ∈ σ.invocations, findRpctype c.delivery.recv.pkt = some (.ofString "response") ∧
    ∃ id reqid, .registered id c.cb ∈ σ.history ∧ findReqid c.delivery.recv.pkt = some reqid ∧
      uuidAt c.delivery.recv.behind reqid = id ∧ ∀ s : CString, id.bytes = s.terminated → reqid = s
  /-- Not if a cancellation has removed the request. -/
  cancelled : ∀ id cb, .cancelled id (some cb) ∈ σ.history → ∀ c ∈ σ.invocations, c.cb ≠ cb
  /-- If such a response is handled while the request is outstanding, the callback has been
  called with it, or is about to be. -/
  complete : ∀ later d r earlier reqid cb, σ.history = later ++ .handled d r :: earlier →
    findRpctype d.recv.pkt = some (.ofString "response") → findReqid d.recv.pkt = some reqid →
    entries protocol.cls earlier (uuidAt d.recv.behind reqid) = some cb → cb.fn = true →
      ⟨cb, d, true⟩ ∈ σ.pending ++ σ.invocations

variable {table : ℕ → UInt8} {σ : ClientRun Unit}

/-- **Responses are dispatched once**, in every state of any run of a client: any calls of
send and of cancel, and any packets for its reader. -/
theorem responses_dispatched_once (hσ : (runs table protocol).Reach σ) : DispatchedOnce σ := by
  have hg := Good.reach hσ
  have hd := disciplined hσ
  refine ⟨?_, fun c hc => ?_, fun id cb hcb c hc heq => ?_, ?_⟩
  · refine List.pairwise_map.mpr (hd.last.imp_of_mem fun {later earlier} _ he h => ?_)
    obtain ⟨id, hkey, -⟩ := hd.own earlier he
    exact h (clientOnpacket_eq_some.mp hkey).2.2
  · obtain ⟨id, hkey, hreg⟩ := hd.own c hc
    obtain ⟨htype, ⟨reqid, hreq, hid⟩, -⟩ := clientOnpacket_eq_some.mp hkey
    exact ⟨htype, id, reqid, hreg, hreq, hid, fun s hs => (uuidAt_eq hs).mp hid⟩
  · have hmem := (hg.mem_invocations hc).1
    rw [heq] at hmem
    exact hg.legal.cancelled_or_handled (fun d key last h => (clientOnpacket_eq_some.mp h).2.2) hcb _ hmem
  · intro later d r earlier reqid cb heq htype hreq hent hfn
    have hkey : protocol.onpacket d.recv = some (uuidAt d.recv.behind reqid, true) :=
      clientOnpacket_eq_some.mpr ⟨htype, ⟨reqid, hreq, rfl⟩, rfl⟩
    have hl := hg.legal
    rw [heq] at hl
    have hr := hl.handled_eq
    rw [lookup, Protocol.cls, hkey, Option.bind_some, hent] at hr
    rw [← hg.invoked, mem_due, heq, hr]
    exact ⟨by simp, hfn, _, hkey⟩

/-- A request, and its response. -/
theorem responses_dispatched_once_reply : ∃ σ, (runs (fun _ => 0) protocol).Reach σ ∧ DispatchedOnce σ ∧
    σ.invocations.length = 1 := by
  let id : Uuid := ⟨List.replicate 36 97 ++ [0], rfl⟩
  let pkt := replyPacket ⟨id, [], []⟩ ⟨id, [], [1]⟩
  let d : Delivery Unit := ⟨0, (), ⟨pkt, fun _ => 0⟩⟩
  have hkey : clientOnpacket ⟨pkt, fun _ => 0⟩ = some (id, true) := by
    refine clientOnpacket_eq_some.mpr ⟨?_, ⟨id.text, ?_, ?_⟩, rfl⟩
    · rw [findRpctype, Packet.firstHeader_eq]; rfl
    · rw [findReqid, Packet.firstHeader_eq]; rfl
    · rfl
  have hexact : Map.Exact (hashUuid fun _ => 0) cmpUuid := uuidExact
  obtain ⟨map₁, hput, h₁⟩ := Map.put_represents hexact Map.init_represents id
    (⟨0, true⟩ : Callback)
  obtain ⟨map₂, hpop, -⟩ := Map.pop_represents uuidExact h₁ id
  rw [Function.update_self] at hpop
  have hσ : (runs (fun _ => 0) protocol).Reach _ := .step (.step (.step
    (.init (s := ⟨_, 0, [((), pkt)], 0, none, [], []⟩) ⟨rfl, rfl, rfl, rfl, fun _ _ => trivial⟩)
    (.registers id true map₁ (.inl rfl) hput))
    (.looks d id true _ map₂ rfl (Nat.zero_le _) rfl hkey hpop))
    (.invokes _ rfl)
  exact ⟨_, hσ, responses_dispatched_once hσ, rfl⟩

end Rpc

end AlephZero
