import AlephZero.Machine.Dispatch
import AlephZero.Machine.Runs
import AlephZero.Map.Exact
import AlephZero.Rpc.Basic

/-!
# Runs of a client

A client, the threads that call it, the thread of its reader, and the topic. The calls of
other clients and of servers, and what the client's own calls write, put packets on the
topic.

## The model

What a thread does under the mutex of the map is one step. The reader's thread handles
packets in the order of the topic, but may miss some, as they are evicted; it looks a
packet up in one step, and calls the callback in a later one. The history is what the map
has been used for, the newest event first.

## What is proved

* `Good` — the invariant: the map is what the history says, the history is legal, and the
  calls are what it says that have been due.
* **`ClientRun.disciplined`** — a callback is called with packets of its own key, in the order of
  the topic, never behind its last one, nor with one handled behind its cancellation.
-/

namespace AlephZero

open Dispatch

/-- A handler, and what may be on the topic; `O` says where a packet is from. -/
structure Protocol (O : Type) where
  /-- The handler, up to its mutex. -/
  onpacket : Received → Option (Uuid × Bool)
  /-- What may be put on the topic. -/
  traffic : O → Packet → Prop
  /-- A callback may be null. -/
  nullable : Bool

/-- A packet of the topic as the reader handles it. -/
structure Delivery (O : Type) where
  /-- Its place on the topic. -/
  index : ℕ
  origin : O
  recv : Received

/-- A call of a callback. -/
structure Invocation (O : Type) where
  cb : Callback
  delivery : Delivery O
  done : Bool

/-- The state of a run. -/
structure ClientRun (O : Type) where
  /-- The map of outstanding requests or connections. -/
  map : Map Uuid Callback
  /-- The number of calls that have registered a callback. -/
  calls : ℕ
  topic : List (O × Packet)
  /-- How far the reader has come on the topic. -/
  next : ℕ
  /-- The callback that the reader is about to call. -/
  due : Option (Invocation O)
  /-- The calls of callbacks, the newest first. -/
  invocations : List (Invocation O)
  history : List (Event Uuid Callback (Delivery O))

variable {O : Type}

/-- What is there is taken away if it is popped. -/
def Protocol.cls (P : Protocol O) : Class Uuid (Delivery O) := fun d => P.onpacket d.recv

namespace ClientRun

/-- The steps. -/
inductive Step (P : Protocol O) (σ : ClientRun O) : ClientRun O → Prop where
  /-- A call registers its callback, by `a0_map_put`. -/
  | registers (id : Uuid) (fn : Bool) (map : Map Uuid Callback) (hfn : fn = true ∨ P.nullable = true)
    (hput : σ.map.put id ⟨σ.calls, fn⟩ = some (.ok (), map)) :
    Step P σ { σ with map := map, calls := σ.calls + 1, history := .registered id ⟨σ.calls, fn⟩ :: σ.history }
  /-- A call cancels an id, by `a0_map_del`. -/
  | cancels (id : Uuid) (r : Except Err Unit) (found : Except Err Callback) (map : Map Uuid Callback)
    (hget : σ.map.get id = some found) (hdel : σ.map.del id = some (r, map)) :
    Step P σ { σ with map := map, history := .cancelled id found.toOption :: σ.history }
  /-- A packet is put on the topic. -/
  | writes (o : O) (pkt : Packet) (h : P.traffic o pkt) : Step P σ { σ with topic := σ.topic ++ [(o, pkt)] }
  /-- The reader handles a packet that has no key. -/
  | ignores (d : Delivery O) (hdue : σ.due = none) (hnext : σ.next ≤ d.index)
    (htopic : σ.topic[d.index]? = some (d.origin, d.recv.pkt)) (hkey : P.onpacket d.recv = none) :
    Step P σ { σ with next := d.index + 1, history := .handled d none :: σ.history }
  /-- The reader looks up the key of a packet. -/
  | looks (d : Delivery O) (id : Uuid) (pop : Bool) (r : Except Err Callback) (map : Map Uuid Callback)
    (hdue : σ.due = none) (hnext : σ.next ≤ d.index)
    (htopic : σ.topic[d.index]? = some (d.origin, d.recv.pkt)) (hkey : P.onpacket d.recv = some (id, pop))
    (hlook : lookupCallback σ.map id pop = some (r, map)) :
    Step P σ { σ with map := map, next := d.index + 1, due := r.toOption.map fun cb => ⟨cb, d, pop⟩,
                      history := .handled d r.toOption :: σ.history }
  /-- It calls the callback. -/
  | invokes (c : Invocation O) (hdue : σ.due = some c) :
    Step P σ { σ with due := none, invocations := if c.cb.fn then c :: σ.invocations else σ.invocations }

variable (table : ℕ → UInt8) (P : Protocol O)

/-- The runs of a client that has just been initialized, at any place of the topic; `table`
is what the memory holds behind `UNHEX_VALUES`. -/
def runs : TransitionSystem (ClientRun O) where
  init σ := σ.map = Map.init (hashUuid table) cmpUuid ∧ σ.due = none ∧ σ.invocations = [] ∧ σ.history = [] ∧
    ∀ e ∈ σ.topic, P.traffic e.1 e.2
  step := Step P

/-! ### The invariant -/

/-- The calls that an event makes due. -/
def due? (P : Protocol O) : Event Uuid Callback (Delivery O) → Option (Invocation O)
  | .handled d (some cb) =>
    if cb.fn then (P.onpacket d.recv).map fun c => ⟨cb, d, c.2⟩ else none
  | _ => none

/-- The callback that is due, unless it is null. -/
def pending (σ : ClientRun O) : List (Invocation O) := σ.due.toList.filter fun c => c.cb.fn

/-- What holds at any time. -/
structure Good (σ : ClientRun O) : Prop where
  traffic : ∀ e ∈ σ.topic, P.traffic e.1 e.2
  map : σ.map.Represents (hashUuid table) cmpUuid (entries P.cls σ.history)
  legal : Legal P.cls σ.history
  fresh : ∀ id cb, .registered id cb ∈ σ.history → cb.call < σ.calls
  nullable : ∀ id cb, .registered id cb ∈ σ.history → cb.fn = true ∨ P.nullable = true
  invoked : σ.history.filterMap (due? P) = σ.pending ++ σ.invocations
  before : ∀ d r, .handled d r ∈ σ.history → d.index < σ.next
  order : (σ.history.filterMap (due? P)).Pairwise fun later earlier =>
    earlier.delivery.index < later.delivery.index
  delivered : ∀ d r, .handled d r ∈ σ.history → σ.topic[d.index]? = some (d.origin, d.recv.pkt)

variable {table P} {σ τ : ClientRun O} {e : Event Uuid Callback (Delivery O)} {c : Invocation O}
  {h : List (Event Uuid Callback (Delivery O))}

theorem uuidExact : Map.Exact (hashUuid table) cmpUuid :=
  ⟨fun _ => ⟨_, rfl⟩, fun _ _ => ⟨_, rfl⟩, cmpUuid_eq_zero⟩

/-- What an event makes due. -/
theorem due?_eq_some : due? P e = some c ↔ e = .handled c.delivery (some c.cb) ∧ c.cb.fn = true ∧
    ∃ id, P.onpacket c.delivery.recv = some (id, c.done) := by
  constructor
  · intro he
    unfold due? at he
    split at he
    · split_ifs at he with hfn
      obtain ⟨⟨id, done⟩, hkey, rfl⟩ := Option.map_eq_some_iff.mp he
      exact ⟨rfl, hfn, id, hkey⟩
    · cases he
  · rintro ⟨rfl, hfn, id, hkey⟩
    rw [due?, if_pos hfn, hkey]
    rfl

theorem mem_due : c ∈ h.filterMap (due? P) ↔ .handled c.delivery (some c.cb) ∈ h ∧ c.cb.fn = true ∧
    ∃ id, P.onpacket c.delivery.recv = some (id, c.done) := by
  rw [List.mem_filterMap]
  constructor
  · rintro ⟨e, he, hc⟩
    obtain ⟨rfl, hfn, hkey⟩ := due?_eq_some.mp hc
    exact ⟨he, hfn, hkey⟩
  · rintro ⟨he, hfn, hkey⟩
    exact ⟨_, he, due?_eq_some.mpr ⟨rfl, hfn, hkey⟩⟩

/-- A packet that is handled is behind those that have been. -/
theorem Good.order_cons (hg : Good table P σ) {d : Delivery O} {r : Option Callback} (hnext : σ.next ≤ d.index) :
    ((Event.handled d r :: σ.history).filterMap (due? P)).Pairwise fun later earlier =>
      earlier.delivery.index < later.delivery.index := by
  rw [List.filterMap_cons]
  split
  · exact hg.order
  · rename_i c hc
    refine List.pairwise_cons.mpr ⟨fun c' hc' => ?_, hg.order⟩
    obtain ⟨he, -⟩ := due?_eq_some.mp hc
    cases he
    exact (hg.before _ _ (mem_due.mp hc').1).trans_le hnext

theorem Good.before_cons (hg : Good table P σ) {d : Delivery O} {r : Option Callback} (hnext : σ.next ≤ d.index)
    (d' : Delivery O) (r' : Option Callback) (hd' : .handled d' r' ∈ Event.handled d r :: σ.history) :
    d'.index < d.index + 1 := by
  rcases List.mem_cons.mp hd' with he | hd'
  · cases he; exact Nat.lt_succ_self _
  · have hlt := hg.before d' r' hd'
    omega

theorem Good.delivered_cons (hg : Good table P σ) {d : Delivery O} {r : Option Callback}
    (htopic : σ.topic[d.index]? = some (d.origin, d.recv.pkt))
    (d' : Delivery O) (r' : Option Callback) (hd' : .handled d' r' ∈ Event.handled d r :: σ.history) :
    σ.topic[d'.index]? = some (d'.origin, d'.recv.pkt) := by
  rcases List.mem_cons.mp hd' with he | hd'
  · cases he; exact htopic
  · exact hg.delivered d' r' hd'

theorem Good.init (hi : (runs table P).init σ) : Good table P σ := by
  obtain ⟨hmap, hdue, hinv, hhist, htraffic⟩ := hi
  have hpend : σ.pending = [] := by rw [pending, hdue]; rfl
  refine ⟨htraffic, ?_, ?_, ?_, ?_, ?_, ?_, ?_, ?_⟩ <;> rw [hhist]
  · rw [hmap]; exact Map.init_represents
  · exact .nil
  · simp
  · simp
  · rw [hinv, hpend]; rfl
  · simp
  · exact .nil
  · simp

/-- A step keeps the invariant. -/
theorem Good.step (hg : Good table P σ) (hst : (runs table P).step σ τ) : Good table P τ := by
  cases hst with
  | registers id fn map hfn hput =>
    obtain ⟨map', hput', hmap⟩ := Map.put_represents uuidExact hg.map id (⟨σ.calls, fn⟩ : Callback)
    obtain rfl : map' = map := by rw [hput] at hput'; cases hput'; rfl
    have hnew : ∀ key, .registered key ⟨σ.calls, fn⟩ ∉ σ.history := fun key hk => by
      have hlt := hg.fresh key _ hk
      exact absurd hlt (lt_irrefl _)
    refine ⟨hg.traffic, hmap, hg.legal.registered hnew, fun id' cb hcb => ?_, fun id' cb hcb => ?_, hg.invoked,
      fun d r hd => ?_, hg.order, fun d r hd => ?_⟩
    · rcases List.mem_cons.mp hcb with he | hcb
      · cases he; exact Nat.lt_succ_self _
      · exact (hg.fresh id' cb hcb).trans (Nat.lt_succ_self _)
    · rcases List.mem_cons.mp hcb with he | hcb
      · cases he; exact hfn
      · exact hg.nullable id' cb hcb
    · exact hg.before d r ((List.mem_cons.mp hd).resolve_left (by simp))
    · exact hg.delivered d r ((List.mem_cons.mp hd).resolve_left (by simp))
  | cancels id r found map hget hdel =>
    obtain ⟨map', hdel', hmap⟩ := Map.del_represents uuidExact hg.map id
    obtain rfl : map' = map := by rw [hdel] at hdel'; cases hdel'; rfl
    have hfound : found.toOption = entries P.cls σ.history id := by
      rw [Map.get_represents uuidExact hg.map id, Option.some.injEq] at hget
      rw [← hget, Map.toOption_found]
    rw [hfound]
    refine ⟨hg.traffic, hmap, hg.legal.cancelled, fun id' cb hcb => ?_, fun id' cb hcb => ?_, hg.invoked,
      fun d r hd => ?_, hg.order, fun d r hd => ?_⟩
    · exact hg.fresh id' cb ((List.mem_cons.mp hcb).resolve_left (by simp))
    · exact hg.nullable id' cb ((List.mem_cons.mp hcb).resolve_left (by simp))
    · exact hg.before d r ((List.mem_cons.mp hd).resolve_left (by simp))
    · exact hg.delivered d r ((List.mem_cons.mp hd).resolve_left (by simp))
  | writes o pkt ho =>
    refine ⟨fun e he => ?_, hg.map, hg.legal, hg.fresh, hg.nullable, hg.invoked, hg.before, hg.order,
      fun d r hd => ?_⟩
    · rcases List.mem_append.mp he with he | he
      · exact hg.traffic e he
      · rw [List.mem_singleton.mp he]; exact ho
    have hd := hg.delivered d r hd
    obtain ⟨hlt, -⟩ := List.getElem?_eq_some_iff.mp hd
    simp only
    rw [List.getElem?_append_left hlt, hd]
  | ignores d hdue hnext htopic hkey =>
    have hlook : lookup P.cls σ.history d = none := by rw [lookup, Protocol.cls, hkey]; rfl
    have hent : entries P.cls (.handled d none :: σ.history) = entries P.cls σ.history := by
      rw [entries, Protocol.cls, hkey]; rfl
    refine ⟨hg.traffic, ?_, ?_, fun id' cb hcb => ?_, fun id' cb hcb => ?_, hg.invoked, hg.before_cons hnext,
      hg.order_cons hnext, hg.delivered_cons htopic⟩
    · rw [hent]; exact hg.map
    · have hl := hg.legal.handled (p := d)
      rwa [hlook] at hl
    · exact hg.fresh id' cb ((List.mem_cons.mp hcb).resolve_left (by simp))
    · exact hg.nullable id' cb ((List.mem_cons.mp hcb).resolve_left (by simp))
  | looks d id pop r map hdue hnext htopic hkey hlook =>
    have hcls : P.cls d = some (id, pop) := hkey
    have hr : r.toOption = entries P.cls σ.history id ∧
        map.Represents (hashUuid table) cmpUuid (entries P.cls (.handled d r.toOption :: σ.history)) := by
      rw [entries, hcls, Option.elim_some]
      cases pop with
      | true =>
        obtain ⟨map', hpop, hmap⟩ := Map.pop_represents uuidExact hg.map id
        rw [lookupCallback, if_pos rfl, hpop] at hlook
        cases hlook
        exact ⟨Map.toOption_found, hmap⟩
      | false =>
        have hget := Map.get_represents uuidExact hg.map id
        rw [lookupCallback, if_neg (by decide), hget] at hlook
        cases hlook
        exact ⟨Map.toOption_found, hg.map⟩
    have hpend : σ.pending = [] := by rw [pending, hdue]; rfl
    refine ⟨hg.traffic, hr.2, ?_, fun id' cb hcb => ?_, fun id' cb hcb => ?_, ?_, hg.before_cons hnext,
      hg.order_cons hnext, hg.delivered_cons htopic⟩
    · have hl := hg.legal.handled (p := d)
      rwa [lookup, hcls, Option.bind_some, ← hr.1] at hl
    · exact hg.fresh id' cb ((List.mem_cons.mp hcb).resolve_left (by simp))
    · exact hg.nullable id' cb ((List.mem_cons.mp hcb).resolve_left (by simp))
    · have hinv := hg.invoked
      rw [hpend, List.nil_append] at hinv
      rw [List.filterMap_cons, hinv, pending]
      cases r with
      | error e => rfl
      | ok cb =>
        simp only [Except.toOption, due?, hkey, Option.map_some, Option.toList_some]
        cases hfn : cb.fn <;> simp [hfn]
  | invokes c hdue =>
    refine ⟨hg.traffic, hg.map, hg.legal, hg.fresh, hg.nullable, ?_, hg.before, hg.order, hg.delivered⟩
    have hinv := hg.invoked
    rw [pending, hdue] at hinv
    rw [hinv, pending]
    cases hfn : c.cb.fn <;> simp [hfn]

/-- **The invariant** holds in every state that a run reaches. -/
theorem Good.reach (hσ : (runs table P).Reach σ) : Good table P σ :=
  TransitionSystem.IsInvariant.reach ⟨fun _ => .init, fun _ _ => .step⟩ hσ

/-! ### Discipline -/

/-- How callbacks are called. -/
structure Disciplined (P : Protocol O) (σ : ClientRun O) : Prop where
  /-- With a packet of its own key, and as the handler says. -/
  own : ∀ c ∈ σ.invocations, ∃ id, P.onpacket c.delivery.recv = some (id, c.done) ∧
    .registered id c.cb ∈ σ.history
  /-- In the order of the topic. -/
  order : σ.invocations.Pairwise fun later earlier => earlier.delivery.index < later.delivery.index
  /-- Not again behind its last call. -/
  last : σ.invocations.Pairwise fun later earlier => earlier.done = true → later.cb ≠ earlier.cb
  /-- With no packet that is handled behind its cancellation. -/
  cancelled : ∀ id cb later earlier, σ.history = later ++ .cancelled id (some cb) :: earlier →
    ∀ c ∈ σ.invocations, c.cb = cb → .handled c.delivery (some cb) ∈ earlier

theorem Good.mem_invocations (hg : Good table P σ) (hc : c ∈ σ.invocations) :
    .handled c.delivery (some c.cb) ∈ σ.history ∧ c.cb.fn = true ∧
      ∃ id, P.onpacket c.delivery.recv = some (id, c.done) := by
  rw [← mem_due (h := σ.history), hg.invoked]
  exact List.mem_append_right _ hc

/-- What is due is not due again behind its last call. -/
theorem pairwise_last (hl : Legal P.cls h) :
    (h.filterMap (due? P)).Pairwise fun later earlier => earlier.done = true → later.cb ≠ earlier.cb := by
  induction h with
  | nil => exact .nil
  | cons e h ih =>
    rw [List.filterMap_cons]
    split
    · exact ih hl.tail
    · rename_i c hc
      refine List.pairwise_cons.mpr ⟨fun c' hc' hdone heq => ?_, ih hl.tail⟩
      obtain ⟨rfl, -⟩ := due?_eq_some.mp hc
      obtain ⟨hmem, -, id, hkey⟩ := mem_due.mp hc'
      obtain ⟨l₁, l₂, rfl⟩ := List.append_of_mem hmem
      rw [hdone] at hkey
      rw [← List.cons_append] at hl
      exact hl.last hkey c.delivery (by rw [heq]; simp)

/-- **A client's callbacks are disciplined** in every state that a run reaches. -/
theorem disciplined (hσ : (runs table P).Reach σ) : Disciplined P σ := by
  have hg := Good.reach hσ
  refine ⟨fun c hc => ?_, ?_, ?_, ?_⟩
  · obtain ⟨hmem, -, id, hkey⟩ := hg.mem_invocations hc
    obtain ⟨l₁, l₂, heq⟩ := List.append_of_mem hmem
    have hl := hg.legal
    rw [heq] at hl
    obtain ⟨id', last, hcls, -, hreg⟩ := hl.handled_some
    rw [Protocol.cls, hkey] at hcls
    cases hcls
    exact ⟨id, hkey, by rw [heq]; simp [hreg]⟩
  · have h := hg.order
    rw [hg.invoked] at h
    exact (List.pairwise_append.mp h).2.1
  · have h := pairwise_last hg.legal
    rw [hg.invoked] at h
    exact (List.pairwise_append.mp h).2.1
  · intro id cb later earlier heq c hc hcb
    have hmem := (hg.mem_invocations hc).1
    have hl := hg.legal
    rw [heq] at hmem hl
    rw [hcb] at hmem
    rcases List.mem_append.mp hmem with hmem | hmem
    · exact absurd hmem (hl.cancelled_last _)
    · exact (List.mem_cons.mp hmem).resolve_left nofun

end ClientRun

end AlephZero
