import AlephZero.Rpc.Once

/-!
# The callback of a connection

The client of `prpc.c`. On its topic there is what clients write when they connect and
cancel, any of them with any id, and what servers send.

## What is proved

* `Published.firstHeader_eq` — the standard headers do not hide the others.
* `not_progressDisciplined` — the cancellation of another client calls the callback.
* **`progress_disciplined`** — if no such packet is handled while the connection that it names
  is outstanding, a callback is called with progress of its own connection, in order, and
  at last, once, with its completion.
-/

namespace AlephZero

open Dispatch ClientRun

/-- The keys of `a0_add_standard_headers`, in the order in which they end up. -/
def standardKeys : List CString :=
  ["a0_transport_seq", "a0_time_mono", "a0_writer_seq", "a0_writer_id", "a0_time_wall"].map .ofString

/-- The packet `q` is what a reader gets when `pkt` is written with the standard headers. -/
structure Published (pkt q : Packet) : Prop where
  id : q.id = pkt.id
  headers : ∃ std : List PacketHeader, std.map PacketHeader.key = standardKeys ∧ q.headers = std ++ pkt.headers
  payload : q.payload = pkt.payload

/-- The standard headers do not hide the others. -/
theorem Published.firstHeader_eq {pkt q : Packet} {key : String} (h : Published pkt q)
    (hkey : .ofString key ∉ standardKeys) : q.firstHeader key = pkt.firstHeader key := by
  obtain ⟨std, hstd, hq⟩ := h.headers
  have hnone : std.find? (fun hdr => .ofString key = hdr.key) = none := by
    refine List.find?_eq_none.mpr fun hdr hmem heq => hkey ?_
    rw [← hstd, of_decide_eq_true heq]
    exact List.mem_map_of_mem hmem
  rw [Packet.firstHeader_eq, Packet.firstHeader_eq, hq, List.find?_append, hnone, Option.none_or]

namespace Prpc

/-- Where a packet is from. -/
inductive Origin where
  | connect (pkt : Packet)
  | cancel (id uuid : Uuid)
  | send (conn resp : Packet) (done : Bool)

/-- What is written. -/
def Origin.packet : Origin → Packet
  | connect pkt => connectPacket pkt
  | cancel id uuid => cancelPacket id uuid
  | send conn resp done => sendPacket conn resp done

/-- The client, and what clients and servers write. -/
def protocol : Protocol Origin := ⟨clientOnpacket, fun o pkt => Published o.packet pkt, false⟩

/-- How the callbacks of connections are called. -/
structure ProgressDisciplined (σ : ClientRun Origin) : Prop where
  /-- With progress, or, as the last one, with a completion. -/
  type : ∀ c ∈ σ.invocations, c.delivery.recv.pkt.firstHeader "a0_prpc_type" =
    some (.ofString (if c.done then "complete" else "progress"))
  /-- Of the connection. -/
  own : ∀ c ∈ σ.invocations, ∃ id connId, .registered id c.cb ∈ σ.history ∧
    c.delivery.recv.pkt.firstHeader "a0_conn_id" = some connId ∧ uuidAt c.delivery.recv.behind connId = id ∧
    ∀ s : CString, id.bytes = s.terminated → connId = s
  /-- In the order in which the packets have been committed. -/
  order : σ.invocations.Pairwise fun later earlier => earlier.delivery.index < later.delivery.index
  /-- Not again behind the completion. -/
  last : σ.invocations.Pairwise fun later earlier => earlier.done = true → later.cb ≠ earlier.cb
  /-- With no packet that is handled behind the client's own cancellation. -/
  cancelled : ∀ id cb later earlier, σ.history = later ++ .cancelled id (some cb) :: earlier →
    ∀ c ∈ σ.invocations, c.cb = cb → .handled c.delivery (some cb) ∈ earlier

/-- The packet is from a call of connect or of cancel, and what the handler takes for its id
is that of an outstanding connection. -/
def Stray (σ : ClientRun Origin) (d : Delivery Origin) : Prop :=
  (∀ conn resp done, d.origin ≠ .send conn resp done) ∧
    ∃ id pop cb, clientOnpacket d.recv = some (id, pop) ∧ σ.map.get id = some (.ok cb)

/-- The runs in which no such packet is handled. -/
def strayless (table : ℕ → UInt8) : TransitionSystem (ClientRun Origin) where
  init := (runs table protocol).init
  step σ τ := (runs table protocol).step σ τ ∧ ∀ d r, τ.history = .handled d r :: σ.history → ¬ Stray σ d

variable {table : ℕ → UInt8} {σ τ : ClientRun Origin}

/-- What the handler reads. -/
theorem clientOnpacket_eq_some {recv : Received} {id : Uuid} {pop : Bool} :
    clientOnpacket recv = some (id, pop) ↔
      (∃ connId, recv.pkt.firstHeader "a0_conn_id" = some connId ∧ uuidAt recv.behind connId = id) ∧
      ∃ type, recv.pkt.firstHeader "a0_prpc_type" = some type ∧ decide (type = .ofString "complete") = pop := by
  rw [clientOnpacket]
  cases recv.pkt.firstHeader "a0_conn_id" with
  | none => simp
  | some connId =>
    cases recv.pkt.firstHeader "a0_prpc_type" with
    | none => simp
    | some type => simp

/-- What a server sends has its type. -/
theorem type_send {conn resp q : Packet} {done : Bool} (h : Published (sendPacket conn resp done) q) :
    q.firstHeader "a0_prpc_type" = some (.ofString (if done then "complete" else "progress")) := by
  rw [h.firstHeader_eq (by decide), Packet.firstHeader_eq]
  rfl

/-- A packet that is looked up and finds a callback is from a server. -/
def FromServer (h : List (Event Uuid Callback (Delivery Origin))) : Prop :=
  ∀ d cb, .handled d (some cb) ∈ h → ∃ conn resp done, d.origin = .send conn resp done

theorem strayless_reach (hσ : (strayless table).Reach σ) : (runs table protocol).Reach σ :=
  TransitionSystem.reach_mono (S := strayless table) (fun _ h => h) (fun _ _ h => h.1) hσ

/-- A step that is not stray keeps it. -/
theorem FromServer.step (hg : Good table protocol σ) (hst : (strayless table).step σ τ) (h : FromServer σ.history) :
    FromServer τ.history := by
  obtain ⟨hstep, hstray⟩ := hst
  intro d cb hd
  cases hstep with
  | registers | cancels | ignores => exact h d cb ((List.mem_cons.mp hd).resolve_left nofun)
  | writes | invokes => exact h d cb hd
  | looks d' id pop r map hdue hnext htopic hkey hlook =>
    rcases List.mem_cons.mp hd with he | hd
    · injection he with hd' hr
      subst hd'
      by_contra hnot
      refine hstray d _ rfl ⟨fun conn resp done ho => hnot ⟨conn, resp, done, ho⟩, id, pop, cb, hkey, ?_⟩
      have hget := Map.get_represents uuidExact hg.map id
      have hfound : r = Map.found (entries protocol.cls σ.history id) := by
        cases pop with
        | true =>
          obtain ⟨map', hpop, -⟩ := Map.pop_represents uuidExact hg.map id
          rw [lookupCallback, if_pos rfl, hpop] at hlook
          cases hlook
          rfl
        | false =>
          rw [lookupCallback, if_neg (by decide), hget] at hlook
          cases hlook
          rfl
      rw [hget, ← hfound]
      cases r with
      | error e => cases hr
      | ok cb' => cases hr; rfl
    · exact h d cb hd

theorem FromServer.reach (hσ : (strayless table).Reach σ) : FromServer σ.history := by
  induction hσ with
  | init hi =>
    obtain ⟨-, -, -, hhist, -⟩ := hi
    rw [hhist]
    exact fun _ _ hd => absurd hd List.not_mem_nil
  | step hs hst ih => exact ih.step (Good.reach (strayless_reach hs)) hst

/-- **Progress is disciplined** in every state of any run of a client in which no packet of
a call of connect or of cancel is handled while the connection that it names is outstanding. -/
theorem progress_disciplined (hσ : (strayless table).Reach σ) : ProgressDisciplined σ := by
  have hreach := strayless_reach hσ
  have hg := Good.reach hreach
  have hd := disciplined hreach
  refine ⟨fun c hc => ?_, fun c hc => ?_, hd.order, hd.last, hd.cancelled⟩
  · obtain ⟨hmem, -, id, hkey⟩ := hg.mem_invocations hc
    obtain ⟨conn, resp, done, ho⟩ := FromServer.reach hσ _ _ hmem
    have hpub := hg.traffic _ (List.mem_of_getElem? (hg.delivered _ _ hmem))
    rw [ho] at hpub
    have htype := type_send hpub
    obtain ⟨-, type, htype', hdone⟩ := clientOnpacket_eq_some.mp hkey
    rw [htype, Option.some.injEq] at htype'
    rw [htype, ← hdone, ← htype']
    cases done <;> rfl
  · obtain ⟨id, hkey, hreg⟩ := hd.own c hc
    obtain ⟨⟨connId, hconn, hid⟩, -⟩ := clientOnpacket_eq_some.mp hkey
    exact ⟨id, connId, hreg, hconn, hid, fun s hs => (uuidAt_eq hs).mp hid⟩

/-- An id. -/
def someId : Uuid := ⟨List.replicate 36 97 ++ [0], rfl⟩

/-- A packet with the standard headers. -/
def published (pkt : Packet) : Packet :=
  pkt.withHeaders (standardKeys.map fun key => ⟨key, .ofString "0"⟩)

theorem published_published (pkt : Packet) : Published pkt (published pkt) :=
  ⟨rfl, ⟨_, by simp [Function.comp_def], rfl⟩, rfl⟩

/-- A client connects, and handles a packet that names the connection. -/
theorem handles_once {o : Origin} {type : CString}
    (hconn : (published o.packet).firstHeader "a0_conn_id" = some someId.text)
    (htype : (published o.packet).firstHeader "a0_prpc_type" = some type) :
    ∃ σ₀ σ₁ σ₂ : ClientRun Origin, ∃ d : Delivery Origin, ∃ r,
      (runs (fun _ => 0) protocol).init σ₀ ∧ Step protocol σ₀ σ₁ ∧
      Step protocol σ₁ σ₂ ∧ σ₁.history = [.registered someId ⟨0, true⟩] ∧
      d.origin = o ∧ d.recv.pkt = published o.packet ∧ σ₂.history = .handled d r :: σ₁.history ∧
      σ₂.due = some ⟨⟨0, true⟩, d, type = .ofString "complete"⟩ ∧ σ₂.invocations = [] := by
  let d : Delivery Origin := ⟨0, o, ⟨published o.packet, fun _ => 0⟩⟩
  have hexact : Map.Exact (hashUuid fun _ => 0) cmpUuid := uuidExact
  obtain ⟨map₁, hput, h₁⟩ := Map.put_represents hexact Map.init_represents someId
    (⟨0, true⟩ : Callback)
  have hkey : clientOnpacket d.recv = some (someId, decide (type = .ofString "complete")) :=
    clientOnpacket_eq_some.mpr ⟨⟨_, hconn, rfl⟩, type, htype, rfl⟩
  have hlook : ∃ map₂, lookupCallback map₁ someId (decide (type = .ofString "complete")) =
      some (.ok ⟨0, true⟩, map₂) := by
    obtain ⟨map₂, hpop, -⟩ := Map.pop_represents uuidExact h₁ someId
    have hget := Map.get_represents uuidExact h₁ someId
    rw [Function.update_self] at hpop hget
    rw [lookupCallback]
    split_ifs
    · exact ⟨map₂, hpop⟩
    · exact ⟨map₁, by rw [hget]; rfl⟩
  obtain ⟨map₂, hlook⟩ := hlook
  refine ⟨⟨_, 0, [(o, published o.packet)], 0, none, [], []⟩, _, _, d, _, ⟨rfl, rfl, rfl, rfl, ?_⟩,
    .registers someId true map₁ (.inl rfl) hput, .looks d someId _ _ map₂ rfl (Nat.zero_le _) rfl hkey hlook,
    rfl, rfl, rfl, rfl, rfl, rfl⟩
  intro e he
  rw [List.mem_singleton.mp he]
  exact published_published _

/-- Another client cancels the connection, and the callback is called with its packet. -/
theorem not_progressDisciplined : ∃ σ, (runs (fun _ => 0) protocol).Reach σ ∧ ¬ ProgressDisciplined σ := by
  have htype : (published (Origin.cancel someId someId).packet).firstHeader "a0_prpc_type" =
      some (.ofString "cancel") := by
    rw [Packet.firstHeader_eq]; rfl
  obtain ⟨σ₀, σ₁, σ₂, d, r, hinit, h₁, h₂, -, -, hpkt, -, hdue, hinv⟩ := handles_once
    (by rw [Packet.firstHeader_eq]; rfl) htype
  have hσ : (runs (fun _ => 0) protocol).Reach _ := .step (.step (.step (.init hinit) h₁) h₂) (.invokes _ hdue)
  refine ⟨_, hσ, fun hd => ?_⟩
  have h := hd.type _ (List.mem_cons_self)
  have hne : decide (CString.ofString "cancel" = .ofString "complete") = false := by decide
  simp only [hpkt, htype, hne] at h
  exact absurd h (by decide)

/-- A server completes the connection. -/
theorem progress_disciplined_complete : ∃ σ, (strayless fun _ => 0).Reach σ ∧ σ.invocations.length = 1 ∧
    ProgressDisciplined σ := by
  have htype : (published (Origin.send ⟨someId, [], []⟩ ⟨someId, [], []⟩ true).packet).firstHeader "a0_prpc_type" =
      some (.ofString "complete") := by
    rw [Packet.firstHeader_eq]; rfl
  obtain ⟨σ₀, σ₁, σ₂, d, r, hinit, h₁, h₂, hhist₁, ho, -, hhist₂, hdue, hinv⟩ := handles_once
    (by rw [Packet.firstHeader_eq]; rfl) htype
  obtain ⟨σ₃, h₃, hlen, hhist₃⟩ : ∃ σ₃, Step protocol σ₂ σ₃ ∧ σ₃.invocations.length = 1 ∧
      σ₃.history = σ₂.history := ⟨_, .invokes _ hdue, by simp [hinv], rfl⟩
  have hσ : (strayless fun _ => 0).Reach σ₃ := by
    refine .step (.step (.step (.init hinit) ⟨h₁, fun d' r' he => ?_⟩) ⟨h₂, fun d' r' he hs => ?_⟩)
      ⟨h₃, fun d' r' he => ?_⟩
    · rw [hhist₁] at he
      cases he
    · rw [hhist₂] at he
      injection he with he
      injection he with hd
      subst hd
      exact hs.1 _ _ _ ho
    · rw [hhist₃] at he
      exact absurd (congrArg List.length he) (by simp)
  exact ⟨σ₃, hσ, hlen, progress_disciplined hσ⟩

end Prpc

end AlephZero
