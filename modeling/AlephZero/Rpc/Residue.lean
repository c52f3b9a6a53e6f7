import AlephZero.Rpc.Blocking
import AlephZero.Rpc.Progress

/-!
# What requests leave behind

A client, and the threads that make requests with it. A blocking request is registered in the
map as the others are, with no callback. The call waits for the reply with a reader of its own,
and does not come back to the map.

## The model

No two requests have one id. A call of `a0_rpc_client_send` registers its callback in one step;
what it writes is, like a cancellation and what the client's reader does, a step of the run of
the client. A call of `a0_rpc_client_send_blocking_timeout` opens its reader, registers its
request, writes it, and reads until it returns. It may fail at any point, as the clock, the
arena and the file are not modelled.

## What is proved

* `Kept.has_iff` — the map holds what has been registered, by either call, and has been neither
  answered nor cancelled since.
* **`no_residue_iff`** — the map holds no other requests than those of `a0_rpc_client_send`, if and
  only if every request of a blocking call has been answered or cancelled.
-/

namespace AlephZero

open Dispatch

/-- What `a0_rpc_client_send` does under the mutex. -/
def ClientRun.register {O : Type} (σ : ClientRun O) (id : Uuid) (fn : Bool) (map : Map Uuid Callback) : ClientRun O :=
  { σ with map := map, calls := σ.calls + 1, history := .registered id ⟨σ.calls, fn⟩ :: σ.history }

namespace Rpc

/-- How far a blocking call has come. -/
inductive Phase where
  /-- Its reader is open. -/
  | opened
  /-- Its request is registered. -/
  | registered
  /-- Its request is written, and it reads. -/
  | reading

/-- A call of `a0_rpc_client_send_blocking_timeout` in progress. -/
structure BlockingCall where
  pkt : Packet
  /-- How far its reader has come on the topic. -/
  next : ℕ
  phase : Phase

/-- A client, and the threads that make requests with it. -/
structure Client (ι : Type) where
  run : ClientRun Unit
  /-- The blocking call that a thread is in. -/
  blocking : ι → Option BlockingCall
  /-- What blocking calls have returned, the newest first. -/
  returned : List (Uuid × Except Err Packet)
  /-- The requests that `a0_rpc_client_send` has registered. -/
  sent : List Uuid
  /-- The requests that blocking calls have registered. -/
  blocked : List Uuid

variable {ι : Type} [DecidableEq ι]

namespace Client

/-- The call of a thread from now on. -/
def setCall (σ : Client ι) (i : ι) (call : Option BlockingCall) : Client ι :=
  { σ with blocking := Function.update σ.blocking i call }

/-- The steps. -/
inductive Step (σ : Client ι) : Client ι → Prop where
  /-- `a0_rpc_client_send` registers a callback. -/
  | sends (id : Uuid) (fn : Bool) (map : Map Uuid Callback) (hnew : id ∉ σ.sent ++ σ.blocked)
    (hput : σ.run.map.put id ⟨σ.run.calls, fn⟩ = some (.ok (), map)) :
    Step σ { σ with run := σ.run.register id fn map, sent := id :: σ.sent }
  /-- A cancellation, a packet that is put on the topic, or a step of the client's reader. -/
  | others (run : ClientRun Unit) (hrun : ClientRun.Step protocol σ.run run) (hcalls : run.calls = σ.run.calls) :
    Step σ { σ with run := run }
  /-- A blocking call opens its reader, at the end of the topic. -/
  | opens (i : ι) (pkt : Packet) (hidle : σ.blocking i = none) :
    Step σ (σ.setCall i (some ⟨pkt, σ.run.topic.length, .opened⟩))
  /-- It registers its request, with no callback. -/
  | registers (i : ι) (pkt : Packet) (next : ℕ) (map : Map Uuid Callback)
    (hcall : σ.blocking i = some ⟨pkt, next, .opened⟩) (hnew : pkt.id ∉ σ.sent ++ σ.blocked)
    (hput : σ.run.map.put pkt.id ⟨σ.run.calls, false⟩ = some (.ok (), map)) :
    Step σ { σ.setCall i (some ⟨pkt, next, .registered⟩) with
             run := σ.run.register pkt.id false map, blocked := pkt.id :: σ.blocked }
  /-- It writes its request. -/
  | writes (i : ι) (pkt : Packet) (next : ℕ) (q : Packet) (hcall : σ.blocking i = some ⟨pkt, next, .registered⟩)
    (hq : Published (requestPacket pkt) q) :
    Step σ { σ.setCall i (some ⟨pkt, next, .reading⟩) with
             run := { σ.run with topic := σ.run.topic ++ [((), q)] } }
  /-- It reads a packet, and goes on. -/
  | reads (i : ι) (pkt : Packet) (next k : ℕ) (recv : Received) (hcall : σ.blocking i = some ⟨pkt, next, .reading⟩)
    (hnext : next ≤ k) (htopic : σ.run.topic[k]? = some ((), recv.pkt)) (hloop : blockingOnpacket pkt.id recv = none) :
    Step σ (σ.setCall i (some ⟨pkt, k + 1, .reading⟩))
  /-- It reads a packet, and returns. -/
  | returns (i : ι) (pkt : Packet) (next k : ℕ) (recv : Received) (r : Except Err Packet)
    (hcall : σ.blocking i = some ⟨pkt, next, .reading⟩) (hnext : next ≤ k)
    (htopic : σ.run.topic[k]? = some ((), recv.pkt)) (hloop : blockingOnpacket pkt.id recv = some r) :
    Step σ { σ.setCall i none with returned := (pkt.id, r) :: σ.returned }
  /-- It returns an error: of its reader, as when that times out, of the map, or of the writer. -/
  | fails (i : ι) (call : BlockingCall) (err : Err) (hcall : σ.blocking i = some call) :
    Step σ { σ.setCall i none with returned := (call.pkt.id, .error err) :: σ.returned }

end Client

/-- The runs of a client that has just been initialized, with no request yet. -/
def clients (table : ℕ → UInt8) : TransitionSystem (Client ι) where
  init σ := (ClientRun.runs table protocol).init σ.run ∧ σ.blocking = (fun _ => none) ∧ σ.returned = [] ∧
    σ.sent = [] ∧ σ.blocked = []
  step := Client.Step

/-- No blocking call is in progress, and the client's reader has handled all there is. -/
structure Quiescent (σ : Client ι) : Prop where
  blocking : ∀ i, σ.blocking i = none
  handled : σ.run.topic.length ≤ σ.run.next
  due : σ.run.due = none

/-- The client's reader has handled a response to a request since it was registered. -/
def Answered (σ : Client ι) (id : Uuid) : Prop :=
  ∃ d r cb, clientOnpacket d.recv = some (id, true) ∧ [.handled d r, .registered id cb].Sublist σ.run.history

/-- The client has cancelled a request since it was registered. -/
def Cancelled (σ : Client ι) (id : Uuid) : Prop :=
  ∃ r cb, [.cancelled id r, .registered id cb].Sublist σ.run.history

/-- The map holds the requests of `a0_rpc_client_send` that have been neither answered nor
cancelled, and no other ones. -/
def NoResidue (σ : Client ι) : Prop :=
  ∀ id, σ.run.map.has id = some true ↔ id ∈ σ.sent ∧ ¬ Answered σ id ∧ ¬ Cancelled σ id

/-! ### What is registered -/

variable {table : ℕ → UInt8} {σ τ : Client ι} {id : Uuid} {cb : Callback}

/-- The history registers each request once. -/
structure Kept (table : ℕ → UInt8) (σ : Client ι) : Prop where
  run : (ClientRun.runs table protocol).Reach σ.run
  once : Once σ.run.history
  registered : ∀ id, (∃ cb, .registered id cb ∈ σ.run.history) ↔ id ∈ σ.sent ++ σ.blocked
  disjoint : ∀ id ∈ σ.sent, id ∉ σ.blocked

omit [DecidableEq ι] in
theorem Kept.once_cons (hk : Kept table σ) (hnew : id ∉ σ.sent ++ σ.blocked) :
    Once (.registered id cb :: σ.run.history) := by
  refine List.pairwise_cons.mpr ⟨?_, hk.once⟩
  rintro e he key v v' heq rfl
  cases heq
  exact hnew ((hk.registered id).mp ⟨v', he⟩)

omit [DecidableEq ι] in
theorem Kept.registered_cons (hk : Kept table σ) (id' : Uuid) :
    (∃ cb', .registered id' cb' ∈ (.registered id cb :: σ.run.history : List (Event _ _ (Delivery Unit)))) ↔
      id' ∈ id :: (σ.sent ++ σ.blocked) := by
  rw [List.mem_cons, ← hk.registered id']
  constructor
  · rintro ⟨cb', hcb'⟩
    rcases List.mem_cons.mp hcb' with heq | hcb'
    · cases heq
      exact .inl rfl
    · exact .inr ⟨cb', hcb'⟩
  · rintro (rfl | ⟨cb', hcb'⟩)
    · exact ⟨cb, List.mem_cons_self⟩
    · exact ⟨cb', List.mem_cons_of_mem _ hcb'⟩

/-- A step that is no call's registration adds none to the history. -/
theorem history_of_calls {run run' : ClientRun Unit} (hrun : ClientRun.Step protocol run run')
    (hcalls : run'.calls = run.calls) :
    run'.history = run.history ∨ ∃ e, (∀ id cb, e ≠ .registered id cb) ∧ run'.history = e :: run.history := by
  cases hrun with
  | registers => exact absurd hcalls (Nat.succ_ne_self _)
  | cancels | ignores | looks => exact .inr ⟨_, fun _ _ he => (by cases he), rfl⟩
  | writes | invokes => exact .inl rfl

theorem Kept.init (hi : (clients table).init σ) : Kept table σ := by
  obtain ⟨hrun, -, -, hsent, hblocked⟩ := hi
  have hhist : σ.run.history = [] := hrun.2.2.2.1
  refine ⟨.init hrun, ?_, fun id => ?_, ?_⟩
  · rw [hhist]
    exact .nil
  · simp [hhist, hsent, hblocked]
  · simp [hsent]

theorem Kept.step (hk : Kept table σ) (hst : (clients table).step σ τ) : Kept table τ := by
  cases hst with
  | sends id fn map hnew hput =>
    refine ⟨.step hk.run (.registers id fn map (.inr rfl) hput), hk.once_cons hnew, hk.registered_cons,
      fun id' hid' => ?_⟩
    rcases List.mem_cons.mp hid' with rfl | hid'
    · exact fun hb => hnew (List.mem_append_right _ hb)
    · exact hk.disjoint id' hid'
  | others run hrun hcalls =>
    rcases history_of_calls hrun hcalls with hhist | ⟨e, he, hhist⟩
    · exact ⟨.step hk.run hrun, hhist ▸ hk.once, hhist ▸ hk.registered, hk.disjoint⟩
    · refine ⟨.step hk.run hrun, ?_, fun id => ?_, hk.disjoint⟩
      · rw [hhist]
        exact List.pairwise_cons.mpr ⟨fun _ _ key v _ heq => absurd heq (he key v), hk.once⟩
      · rw [hhist, ← hk.registered id]
        exact exists_congr fun cb => List.mem_cons.trans (or_iff_right (he id cb).symm)
  | registers i pkt next map hcall hnew hput =>
    refine ⟨.step hk.run (.registers pkt.id false map (.inr rfl) hput), hk.once_cons hnew, fun id' => ?_,
      fun id' hid' hb => ?_⟩
    · exact (hk.registered_cons id').trans List.perm_middle.symm.mem_iff
    · rcases List.mem_cons.mp hb with rfl | hb
      · exact hnew (List.mem_append_left _ hid')
      · exact hk.disjoint id' hid' hb
  | writes i pkt next q hcall hq => exact ⟨.step hk.run (.writes () q trivial), hk.once, hk.registered, hk.disjoint⟩
  | opens | reads | returns | fails => exact ⟨hk.run, hk.once, hk.registered, hk.disjoint⟩

theorem Kept.reach (hσ : (clients table).Reach σ) : Kept table σ :=
  TransitionSystem.IsInvariant.reach ⟨fun _ => .init, fun _ _ => .step⟩ hσ

/-! ### What the map holds -/

omit [DecidableEq ι] in
theorem ended_iff : Ended protocol.cls σ.run.history id ↔ Answered σ id ∨ Cancelled σ id := by
  constructor
  · rintro ⟨e, cb, he, hsub⟩
    cases e with
    | registered id' cb' => exact he.elim
    | cancelled id' r =>
      obtain rfl : id' = id := he
      exact .inr ⟨r, cb, hsub⟩
    | handled d r => exact .inl ⟨d, r, cb, he, hsub⟩
  · rintro (⟨d, r, cb, hd, hsub⟩ | ⟨r, cb, hsub⟩)
    · exact ⟨.handled d r, cb, hd, hsub⟩
    · exact ⟨.cancelled id r, cb, rfl, hsub⟩

omit [DecidableEq ι] in
/-- The map holds what has been registered, and neither answered nor cancelled since. -/
theorem Kept.has_iff (hk : Kept table σ) :
    σ.run.map.has id = some true ↔ id ∈ σ.sent ++ σ.blocked ∧ ¬ (Answered σ id ∨ Cancelled σ id) := by
  have hg := ClientRun.Good.reach hk.run
  rw [Map.has_represents ClientRun.uuidExact hg.map id, Option.some.injEq, hk.once.entries_isSome_iff,
    hk.registered id, ended_iff]

/-- **No residue**, in any state of any run, if and only if every request that a blocking call has
registered has been answered or cancelled. -/
theorem no_residue_iff (hσ : (clients table).Reach σ) :
    NoResidue σ ↔ ∀ id ∈ σ.blocked, Answered σ id ∨ Cancelled σ id := by
  have hk := Kept.reach hσ
  constructor
  · intro h id hid
    by_contra hnot
    have hhas := hk.has_iff.mpr ⟨List.mem_append_right _ hid, hnot⟩
    exact hk.disjoint id ((h id).mp hhas).1 hid
  · intro h id
    rw [hk.has_iff, not_or, List.mem_append]
    constructor
    · rintro ⟨hsent | hblocked, hnot⟩
      · exact ⟨hsent, hnot⟩
      · exact absurd (h id hblocked) (not_or.mpr hnot)
    · rintro ⟨hsent, hnot⟩
      exact ⟨.inl hsent, hnot⟩

/-! ### A request that times out -/

section Timeout

open ClientRun

/-- The request that a blocking call makes. -/
def request : Packet := ⟨waiting, [], []⟩

/-- It is on the topic. -/
def written : Delivery Unit := ⟨0, (), ⟨Prpc.published (requestPacket request), fun _ => 0⟩⟩

theorem clientOnpacket_written : clientOnpacket written.recv = none := by
  rw [clientOnpacket, findRpctype, Packet.firstHeader_eq]
  rfl

/-- A blocking call has written its request, and the client's reader has handled that. -/
theorem exists_request : ∃ (map : Map Uuid Callback) (σ : Client Unit), (clients fun _ => 0).Reach σ ∧
    map.Represents (hashUuid fun _ => 0) cmpUuid (Function.update (fun _ => none) waiting (some ⟨0, false⟩)) ∧
    σ.run = ⟨map, 1, [((), written.recv.pkt)], 1, none, [], [.handled written none, .registered waiting ⟨0, false⟩]⟩ ∧
    σ.blocking () = some ⟨request, 0, .reading⟩ ∧ σ.returned = [] ∧ σ.sent = [] ∧ σ.blocked = [waiting] := by
  have hexact : Map.Exact (hashUuid fun _ => 0) cmpUuid := uuidExact
  obtain ⟨map, hput, hmap⟩ := Map.put_represents hexact Map.init_represents waiting (⟨0, false⟩ : Callback)
  have hinit : (clients (ι := Unit) fun _ => 0).Reach ⟨⟨_, 0, [], 0, none, [], []⟩, fun _ => none, [], [], []⟩ :=
    .init ⟨⟨rfl, rfl, rfl, rfl, by simp⟩, rfl, rfl, rfl, rfl⟩
  have hopens := hinit.step (.opens () request rfl)
  have hregisters := hopens.step (.registers () request 0 map rfl List.not_mem_nil hput)
  have hwrites := hregisters.step (.writes () request 0 _ rfl (Prpc.published_published _))
  have hignores := hwrites.step (.others _ (.ignores written rfl (Nat.zero_le _) rfl clientOnpacket_written) rfl)
  exact ⟨map, _, hignores, hmap, rfl, rfl, rfl, rfl, rfl⟩

/-- A request is answered. -/
theorem no_residue_iff_reply : ∃ σ : Client Unit, Quiescent σ ∧ σ.returned = [(waiting, .ok reply.pkt)] ∧
    NoResidue σ := by
  obtain ⟨map, σ, hσ, hmap, hrun, hcall, hreturned, hsent, hblocked⟩ := exists_request
  obtain ⟨run, blocking, returned, sent, blocked⟩ := σ
  obtain rfl := hrun
  obtain rfl : returned = [] := hreturned
  obtain rfl : sent = [] := hsent
  obtain rfl : blocked = [waiting] := hblocked
  obtain ⟨map', hpop, -⟩ := Map.pop_represents uuidExact hmap waiting
  rw [Function.update_self] at hpop
  have hreply : clientOnpacket reply = some (waiting, true) := clientOnpacket_eq_carriedType.mpr carriedType_reply
  have hloop : blockingOnpacket waiting reply = some (.ok reply.pkt) := by
    rw [blockingOnpacket_eq, carriedType_reply]
    rfl
  have hanswers := hσ.step (.others _ (.writes () reply.pkt trivial) rfl)
  have hlooks := hanswers.step (.others _ (.looks ⟨1, (), reply⟩ waiting true _ map' rfl le_rfl rfl hreply hpop) rfl)
  have hinvokes := hlooks.step (.others _ (.invokes _ rfl) rfl)
  have hreturns := hinvokes.step (.returns () request 0 1 reply _ hcall (Nat.zero_le _) rfl hloop)
  refine ⟨_, ⟨fun _ => rfl, le_rfl, rfl⟩, rfl, (no_residue_iff hreturns).mpr fun id hid => ?_⟩
  obtain rfl := List.mem_singleton.mp hid
  exact .inl ⟨_, _, _, hreply, ((List.Sublist.refl _).cons _).cons_cons _⟩

/-- A request times out, and stays in the map. -/
theorem not_no_residue : ∃ σ : Client Unit, (clients fun _ => 0).Reach σ ∧ Quiescent σ ∧
    σ.returned = [(waiting, .error (.sys .etimedout))] ∧ ¬ NoResidue σ := by
  obtain ⟨map, σ, hσ, hmap, hrun, hcall, hreturned, hsent, -⟩ := exists_request
  have hfails := hσ.step (.fails () _ (.sys .etimedout) hcall)
  refine ⟨_, hfails, ⟨fun _ => rfl, ?_, ?_⟩, ?_, fun h => ?_⟩
  · exact (congrArg (fun run => run.topic.length ≤ run.next) hrun).mpr le_rfl
  · exact congrArg ClientRun.due hrun
  · exact congrArg (_ :: ·) hreturned
  · have hhas : σ.run.map.has waiting = some true := by
      rw [hrun]
      exact (Map.has_represents uuidExact hmap waiting).trans (by rw [Function.update_self]; rfl)
    have hmem : waiting ∈ σ.sent := ((h waiting).mp hhas).1
    rw [hsent] at hmem
    cases hmem

end Timeout

end Rpc

end AlephZero
