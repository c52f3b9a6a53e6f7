import AlephZero.Machine.MergePatch
import AlephZero.Packet.Flat
import AlephZero.Writer.Fleet
import AlephZero.Writer.Standard

/-!
# Patches of a config

Any number of processes that patch a config with `a0_cfg_mergepatch`. Each call reads the
newest packet, puts its patch on it and writes what comes of it, all with the lock. The
first call finds nothing to patch, and writes its patch as it is.

## The model

The JSON library is a parameter, with what it is said to do (`Yyjson.Faithful`): it reads
texts, puts a merge patch on a document, and prints documents. The calls are the writes of
a `Fleet`, on a topic that was empty.

## What is proved

* `mergePayload_eq` — the new payload is an error, or the text of the patched document.
* `Cfg.Step.inv`, `Cfg.isInvariant` — the invariant, for one step and for a run.
* **`config_folds_iff`** — each call that returns A0_OK adds one packet, and its value has
  always been that of all patches so far on the empty object if and only if the first one
  has no null members.
-/

namespace AlephZero

open ByteMem StoreProg Prog Transport

variable {Val ι K α : Type} {json : Yyjson Val} {mode : ArenaMode} {m : Mem} {n q : ℕ} {C : List Frame}
  {pkt pkt' : Packet}

/-- The writer of `a0_cfg_mergepatch`, which wraps that of the config. -/
def cfgMergepatch (id : CString) (data : ℕ) : Build Provided := .wrap (.leaf .jsonMergepatch) (standardWriter id data)

/-! ### The library -/

/-- The JSON library does what it is said to do, for the texts that `parse` gives a value, and
with documents that are the values `value`. -/
structure Yyjson.Faithful (json : Yyjson Val) (parse : List UInt8 → Option (Json K α)) (value : Val → Json K α) :
    Prop where
  read : ∀ text v, parse text = some v → ∃ doc, json.read text = .ok doc ∧ value doc = v
  mergePatch : ∀ t p, value (json.mergePatch t p) = Json.mergePatch (some (value t)) (value p)
  write : ∀ doc size text, json.write doc size = .ok text → parse text = some (value doc)

variable {parse : List UInt8 → Option (Json K α)} {value : Val → Json K α}

/-- What a patch makes of a payload, if there is no error. -/
theorem mergePayload_eq {original patch : List UInt8} {t p : Json K α} (hjson : json.Faithful parse value)
    (ht : parse original = some t) (hp : parse patch = some p) :
    (∃ e, mergePayload json original patch = .error e) ∨
      ∃ payload, mergePayload json original patch = .ok payload ∧
        parse payload = some (Json.mergePatch (some t) p) := by
  obtain ⟨doc, hdoc, rfl⟩ := hjson.read original t ht
  obtain ⟨patchDoc, hpatchDoc, rfl⟩ := hjson.read patch p hp
  by_cases horiginal : json.readMaxMemoryUsage original.length = 0
  · exact .inl ⟨_, by simp only [mergePayload, horiginal, if_true]; rfl⟩
  by_cases hpatch : json.readMaxMemoryUsage patch.length = 0
  · exact .inl ⟨_, by simp only [mergePayload, horiginal, hdoc, hpatch, if_true, if_false]; rfl⟩
  have hpayload : mergePayload json original patch = (json.write (json.mergePatch doc patchDoc)
      (json.readMaxMemoryUsage original.length + json.readMaxMemoryUsage patch.length)).mapError fun msg =>
        Err.customMsg ("Failed to serialize cfg: " ++ msg) := by
    simp only [mergePayload, horiginal, hdoc, hpatch, hpatchDoc, if_false]
    rfl
  rw [hpayload]
  cases hwrite : json.write (json.mergePatch doc patchDoc)
      (json.readMaxMemoryUsage original.length + json.readMaxMemoryUsage patch.length) with
  | error msg => exact .inl ⟨_, rfl⟩
  | ok text =>
    refine .inr ⟨text, rfl, ?_⟩
    rw [hjson.write _ _ _ hwrite, hjson.mergePatch]

/-! ### The newest packet -/

/-- The payload in the bytes of a packet, as `a0_flat_packet_payload` finds it. -/
def payloadOf (bytes : List UInt8) : List UInt8 :=
  let m : Mem := Mem.storeBytes (fun _ => 0) 0 bytes
  let buf := flatPacketPayload m ⟨0, bytes.length⟩
  m.loadBytes buf.data buf.size

theorem payloadOf_wire (hsize : pkt.wire.length < addressSpace) : payloadOf pkt.wire = pkt.payload := by
  have hflat : pkt.Flat (Mem.storeBytes (fun _ => 0) 0 pkt.wire) ⟨0, pkt.wire.length⟩ :=
    ⟨Mem.loadBytes_storeBytes_self, rfl, hsize⟩
  exact hflat.flatView.payload

/-- The newest packet is the data of the newest frame. -/
theorem newestPacket_eq {f : Frame} (h : Ready m n (C ++ [f]) [] q) :
    newestPacket m { arena := ⟨0, mode⟩ } = some ⟨f.off + 40, f.data.length⟩ := by
  have hf : f ∈ C ++ [f] := List.mem_append_right C (List.mem_singleton_self f)
  have hstored : f.In m := h.stored (List.mem_append_left [] hf)
  rw [newestPacket, jumpTail_eq rfl h.page.1]
  simp only [frame_moveTo rfl (.refl _) h.page.1 hf, hstored.size]

/-- The value of the newest packet, if there is one. -/
def Holding (parse : List UInt8 → Option (Json K α)) (C : List Frame) (stored : Option (Json K α)) : Prop :=
  C.getLast?.elim (stored = none) fun f => ∃ pkt : Packet, f.data = pkt.wire ∧ pkt.wire.length < addressSpace ∧
    stored ≠ none ∧ parse pkt.payload = stored

/-- What becomes of a patch: an error, or it is put on the newest packet. -/
theorem lockedPhase_cfgMergepatch {id : CString} {data : ℕ} {mono : CString} {stored : Option (Json K α)} {p : Json K α}
    (hjson : json.Faithful parse value) (h : Ready m n C [] q) (hstored : Holding parse C stored)
    (hp : parse pkt.payload = some p) (hne : lockedPhase json mode m mono (cfgMergepatch id data).leaves pkt ≠ .stuck) :
    (∃ e, lockedPhase json mode m mono (cfgMergepatch id data).leaves pkt = .failed e) ∨
      ∃ pkt', lockedPhase json mode m mono (cfgMergepatch id data).leaves pkt = .append pkt' ∧ q + 2 < 2 ^ 64 ∧
        parse pkt'.payload = some (stored.elim p fun t => Json.mergePatch (some t) p) := by
  have hroom : ∀ text, seqText (workingState m).seqHigh = some text → q + 2 < 2 ^ 64 := by
    intro text htext
    have hlt := (seqText_eq_some htext).1
    rw [h.page.2] at hlt
    norm_num at hlt ⊢
    omega
  have hleaves : (cfgMergepatch id data).leaves = .jsonMergepatch :: (standardWriter id data).leaves := rfl
  rw [hleaves, lockedPhase, h.empty_eq] at hne ⊢
  rcases List.eq_nil_or_concat C with rfl | ⟨C, f, rfl⟩
  · obtain rfl : stored = none := hstored
    simp only [List.isEmpty_nil, if_true] at hne ⊢
    obtain ⟨text, htext, happend⟩ := exists_stampedLate hne
    exact .inr ⟨_, happend, hroom text htext, hp⟩
  · rw [Holding, List.concat_eq_append, List.getLast?_concat, Option.elim_some] at hstored
    obtain ⟨newest, hdata, hsize, hsome, hvalue⟩ := hstored
    obtain ⟨t, rfl⟩ := Option.ne_none_iff_exists'.mp hsome
    rw [List.concat_eq_append] at h
    have hf : f ∈ C ++ [f] ++ [] := by simp
    have hpayload : m.loadBytes (flatPacketPayload m ⟨f.off + 40, f.data.length⟩).data
        (flatPacketPayload m ⟨f.off + 40, f.data.length⟩).size = newest.payload := by
      have hat : m.At (f.off + 40) newest.wire := hdata ▸ (h.stored hf).data
      have hlength : f.data.length = newest.wire.length := congrArg List.length hdata
      have hflat : newest.Flat m ⟨f.off + 40, f.data.length⟩ := ⟨hat, hlength, hlength.trans_lt hsize⟩
      exact hflat.flatView.payload
    have hempty : (C ++ [f]).isEmpty = false := List.isEmpty_eq_false_iff.mpr (by simp)
    simp only [List.concat_eq_append, hempty, Bool.false_eq_true, if_false, newestPacket_eq h, hpayload] at hne ⊢
    rcases mergePayload_eq hjson hvalue hp with ⟨e, he⟩ | ⟨payload, hok, hmerged⟩
    · rw [he]
      exact .inl ⟨e, rfl⟩
    · rw [hok] at hne ⊢
      obtain ⟨text, htext, happend⟩ := exists_stampedLate hne
      exact .inr ⟨_, happend, hroom text htext, hmerged⟩

/-! ### The calls -/

namespace Cfg

/-- The values of the patches whose calls have returned A0_OK, in commit order. -/
def patches (parse : List UInt8 → Option (Json K α)) (σ : Fleet ι) : List (Json K α) :=
  σ.returned.filterMap fun r => if r.status = .ok then parse r.pkt.payload else none

/-- The value of each packet, when it was the newest one, was that of all patches so far on the
empty object. -/
def Folds (parse : List UInt8 → Option (Json K α)) (σ : Fleet ι) : Prop :=
  ∀ k e, σ.committed[k]? = some e → parse (payloadOf e.2) = some (Json.folded ((patches parse σ).take (k + 1)))

variable [DecidableEq ι]

/-- A step of the calls. What is to be appended fits. -/
def Step (json : Yyjson Val) (mode : ArenaMode) (id : ι → CString) (data : ι → ℕ) (σ τ : Fleet ι) : Prop :=
  Fleet.Step json mode (fun i => cfgMergepatch (id i) (data i)) σ τ ∧
    σ.Fitting json mode (fun i => cfgMergepatch (id i) (data i)) τ

/-- Any interleaving of the calls, on a topic that was empty. -/
def runs (json : Yyjson Val) (mode : ArenaMode) (id : ι → CString) (data : ι → ℕ) (program : ι → List Packet) :
    TransitionSystem (Fleet ι) where
  init := (Fleet.runs json mode (fun i => cfgMergepatch (id i) (data i)) program).init
  step := Step json mode id data

/-! ### The invariant -/

/-- The newest packet is the newest one that a call has added; each has added one, which is the
first patch with all further ones up to its own. -/
structure Inv (parse : List UInt8 → Option (Json K α)) (σ : Fleet ι) (n : ℕ) (C : List Frame) (q : ℕ) : Prop where
  ready : Ready σ.host.mem n C [] q
  newest : (C.map Frame.entry).getLast? = σ.committed.getLast?
  length : σ.committed.length = (patches parse σ).length
  stores : ∀ k e, σ.committed[k]? = some e → ∃ pkt : Packet, e.2 = pkt.wire ∧ pkt.wire.length < addressSpace ∧
    parse pkt.payload = Json.merged ((patches parse σ).take (k + 1))
  pending : ∀ i pkt pkt', σ.pending i = some (pkt, pkt') →
    pkt'.payload = pkt.payload ∧ ∃ p, parse pkt.payload = some p
  todo : ∀ i, ∀ pkt ∈ σ.todo i, ∃ p, parse pkt.payload = some p

variable {σ τ : Fleet ι} {id : ι → CString} {data : ι → ℕ} {program : ι → List Packet}

omit [DecidableEq ι] in
/-- The newest packet has the value of all patches. -/
theorem Inv.holding (h : Inv parse σ n C q) : Holding parse C (Json.merged (patches parse σ)) := by
  have hnewest : C.getLast?.map Frame.entry = σ.committed[σ.committed.length - 1]? := by
    rw [← List.getLast?_map, h.newest, List.getLast?_eq_getElem?]
  rw [Holding]
  cases hC : C.getLast? with
  | none =>
    rw [hC, Option.map_none, eq_comm, List.getElem?_eq_none_iff] at hnewest
    have hnone : patches parse σ = [] := List.eq_nil_of_length_eq_zero (by rw [← h.length]; omega)
    rw [hnone]
    rfl
  | some f =>
    rw [hC, Option.map_some, eq_comm] at hnewest
    obtain ⟨pkt, hdata, hsize, hvalue⟩ := h.stores _ _ hnewest
    obtain ⟨hlt, -⟩ := List.getElem?_eq_some_iff.mp hnewest
    have hall : σ.committed.length - 1 + 1 = (patches parse σ).length := by
      rw [← h.length]
      omega
    rw [hall, List.take_length] at hvalue
    refine ⟨pkt, hdata, hsize, ?_, hvalue⟩
    cases hp : patches parse σ with
    | nil =>
      rw [h.length, hp] at hlt
      exact absurd hlt (Nat.not_lt_zero _)
    | cons p ps => exact Option.some_ne_none _

omit [DecidableEq ι] in
/-- A call that has not changed anything. -/
theorem Inv.keeps {τ : Fleet ι} (h : Inv parse σ n C q) (hready : Ready τ.host.mem n C [] q)
    (hcommitted : τ.committed = σ.committed) (hpatches : patches parse τ = patches parse σ)
    (hpending : ∀ i pkt pkt', τ.pending i = some (pkt, pkt') →
      pkt'.payload = pkt.payload ∧ ∃ p, parse pkt.payload = some p)
    (htodo : ∀ i, ∀ pkt ∈ τ.todo i, ∃ p, parse pkt.payload = some p) : Inv parse τ n C q where
  ready := hready
  newest := hcommitted ▸ h.newest
  length := by rw [hcommitted, hpatches]; exact h.length
  stores := by rw [hcommitted, hpatches]; exact h.stores
  pending := hpending
  todo := htodo

omit [DecidableEq ι] in
/-- A call that has put its patch on the newest packet. -/
theorem Inv.appends {τ : Fleet ι} {f : Frame} {k : ℕ} {p : Json K α} (h : Inv parse σ n C q)
    (hready : Ready τ.host.mem n (C.drop k ++ [f]) [] (q + 1)) (hcommitted : τ.committed = σ.committed ++ [f.entry])
    (hpatches : patches parse τ = patches parse σ ++ [p]) (hdata : f.data = pkt'.wire)
    (hsize : pkt'.wire.length < addressSpace)
    (hvalue : parse pkt'.payload = some ((Json.merged (patches parse σ)).elim p fun t => Json.mergePatch (some t) p))
    (hpending : ∀ i pkt pkt', τ.pending i = some (pkt, pkt') →
      pkt'.payload = pkt.payload ∧ ∃ p, parse pkt.payload = some p)
    (htodo : ∀ i, ∀ pkt ∈ τ.todo i, ∃ p, parse pkt.payload = some p) :
    Inv parse τ n (C.drop k ++ [f]) (q + 1) := by
  refine ⟨hready, ?_, ?_, ?_, hpending, htodo⟩
  · rw [hcommitted, List.map_append, List.map_singleton, List.getLast?_concat, List.getLast?_concat]
  · rw [hcommitted, hpatches, List.length_append, List.length_append, h.length]
    rfl
  · intro j e hj
    rw [hcommitted, List.getElem?_append] at hj
    rw [hpatches]
    split_ifs at hj with hlt
    · rw [List.take_append_of_le_length (by rw [← h.length]; omega)]
      exact h.stores j e hj
    · have hzero : j - σ.committed.length = 0 := by
        by_contra hne
        rw [List.getElem?_singleton, if_neg hne] at hj
        cases hj
      rw [hzero] at hj
      cases hj
      refine ⟨pkt', hdata, hsize, ?_⟩
      rw [List.take_of_length_le (by rw [List.length_append, ← h.length, List.length_singleton]; omega),
        Json.merged_append]
      exact hvalue

omit [DecidableEq ι] in
theorem patches_returned {τ : Fleet ι} {r : Returned ι} (h : τ.returned = σ.returned ++ [r]) :
    patches parse τ = patches parse σ ++ (if r.status = .ok then parse r.pkt.payload else none).toList := by
  rw [patches, h, List.filterMap_append, patches, List.filterMap_cons, List.filterMap_nil]
  cases (if r.status = .ok then parse r.pkt.payload else none) <;> rfl

/-- A step keeps the invariant. -/
theorem Step.inv (hmode : mode ≠ .readonly) (hjson : json.Faithful parse value) (hstep : Step json mode id data σ τ)
    (h : Inv parse σ n C q) : ∃ C' q', Inv parse τ n C' q' := by
  obtain ⟨hstep, hfit⟩ := hstep
  cases hstep with
  | ticks mono wall => exact ⟨C, q, h.keeps h.ready rfl rfl h.pending h.todo⟩
  | begins i pkt pkt' rest host hnone htodo hprocess =>
    have hready : Ready host.mem n C [] q := by
      rw [processPhase_mem hprocess]
      exact h.ready
    have hparse : ∀ pkt₁ ∈ pkt :: rest, ∃ p, parse pkt₁.payload = some p := by
      rw [← htodo]
      exact h.todo i
    refine ⟨C, q, h.keeps hready rfl rfl ?_ ?_⟩
    · intro j pkt₁ pkt₂ hj
      by_cases hij : j = i
      · subst hij
        simp only [Fleet.begun, Function.update_self] at hj
        cases hj
        have hstandard : processPhase (standardWriter (id j) (data j)).leaves σ.host pkt = some (pkt', host) := hprocess
        obtain ⟨writerSeq, rfl⟩ := exists_stampedEarly hstandard
        exact ⟨rfl, hparse pkt List.mem_cons_self⟩
      · simp only [Fleet.begun, Function.update_of_ne hij] at hj
        exact h.pending j pkt₁ pkt₂ hj
    · intro j pkt₁ hj
      by_cases hij : j = i
      · subst hij
        simp only [Fleet.begun, Function.update_self] at hj
        exact hparse pkt₁ (List.mem_cons_of_mem _ hj)
      · simp only [Fleet.begun, Function.update_of_ne hij] at hj
        exact h.todo j pkt₁ hj
  | returns i pkt pkt' out hpending hret hsize hlow hout =>
    obtain ⟨hpayload, p, hp⟩ := h.pending i pkt pkt' hpending
    have hlock : Ready ((lock mode).exec σ.host.mem) n C [] q := lock_committed mode h.ready
    obtain ⟨r, hreturned, -, hpkt, hstatus, hadded⟩ :=
      Fleet.ended_status json mode (cfgMergepatch (id i) (data i)).leaves out σ i pkt pkt'
    have hcommitted := Fleet.committed_returned hreturned
    have hpatches : patches parse _ = _ := patches_returned hreturned
    have hothers : ∀ j pkt₁ pkt₂,
        (σ.ended json mode (cfgMergepatch (id i) (data i)).leaves out i pkt pkt').pending j = some (pkt₁, pkt₂) →
          pkt₂.payload = pkt₁.payload ∧ ∃ p, parse pkt₁.payload = some p := by
      intro j pkt₁ pkt₂ hj
      by_cases hij : j = i
      · subst hij
        simp only [Fleet.ended, Function.update_self] at hj
        cases hj
      · simp only [Fleet.ended, Function.update_of_ne hij] at hj
        exact h.pending j pkt₁ pkt₂ hj
    rw [hadded] at hcommitted
    rcases lockedPhase_cfgMergepatch hjson hlock h.holding (hpayload.symm ▸ hp) (Fleet.lockedPhase_ne_stuck hret) with
      ⟨e, hfailed⟩ | ⟨pkt'', happend, hroom, hvalue⟩
    · -- the call returns an error, and nothing has changed
      have hnever : ∀ pkt'' : Packet, Outcome.failed e ≠ .append pkt'' := by
        intro pkt'' hno
        cases hno
      rcases Fleet.ended_ready i pkt hmode h.ready hret hfailed.symm (fun _ hno => absurd hno (hnever _))
        (fun _ hno => absurd hno (hnever _)) hlow hout with
        ⟨pkt'', f, hno, -⟩ | ⟨-, hready, hnone⟩
      · cases hno
      · rw [hfailed] at hstatus
        rw [hnone, List.append_nil] at hcommitted
        have herror : r.status ≠ .ok := by
          rw [hstatus]
          intro hno
          cases hno
        rw [if_neg herror, Option.toList_none, List.append_nil] at hpatches
        exact ⟨C, q, h.keeps hready hcommitted hpatches hothers h.todo⟩
    · have hended : Function.update σ.pending i none i = none := Function.update_self ..
      have hfits := hfit i pkt pkt' pkt'' hpending hended happend
      rw [h.ready.arenaSize_eq] at hfits
      have hok : (writeActionProcessLocked mode out pkt'').eval ((lock mode).exec σ.host.mem) = .ok :=
        (append_packet (X := []) out hmode hlock hroom (hsize pkt'' happend) hfits).1
      rw [happend, Outcome.eval, hok] at hstatus
      rcases Fleet.ended_ready i pkt hmode h.ready hret happend.symm (fun _ _ => hroom)
        (fun _ heq => hsize _ (happend.trans heq)) hlow hout with ⟨_, f, heq, -, -, hdata, hready, hone⟩ | ⟨hno, -⟩
      · cases heq
        rw [hone] at hcommitted
        rw [if_pos hstatus, hpkt, hp, Option.toList_some] at hpatches
        have hspace : pkt''.wire.length < addressSpace := by
          have hlt := hsize pkt'' happend
          rw [← Packet.length_wire] at hlt
          rw [addressSpace]
          omega
        exact ⟨_, _, h.appends hready hcommitted hpatches hdata hspace hvalue hothers h.todo⟩
      · exact absurd hfits (not_le.mpr (hno _ rfl))

theorem isInvariant (hmode : mode ≠ .readonly) (hjson : json.Faithful parse value)
    (hprogram : ∀ i, ∀ pkt ∈ program i, ∃ p, parse pkt.payload = some p) :
    (runs json mode id data program).IsInvariant fun σ => ∃ n C q, Inv parse σ n C q where
  init := by
    rintro σ ⟨⟨n, hn, hmem⟩, htodo, hpending, hreturned⟩
    have hready : Ready σ.host.mem n [] [] 0 := by
      rw [hmem]
      exact reached_init mode hn
    have hcommitted : σ.committed = [] := by rw [Fleet.committed, hreturned, List.flatMap_nil]
    have hpatches : patches parse σ = [] := by rw [patches, hreturned, List.filterMap_nil]
    refine ⟨n, [], 0, hready, ?_, ?_, ?_, ?_, ?_⟩
    · rw [hcommitted, List.map_nil]
    · rw [hcommitted, hpatches]
      rfl
    · intro k e hk
      rw [hcommitted] at hk
      cases hk
    · intro i pkt pkt' hi
      rw [hpending i] at hi
      cases hi
    · rw [htodo]
      exact hprogram
  step := by
    rintro σ τ ⟨n, C, q, h⟩ hstep
    obtain ⟨C', q', h'⟩ := hstep.inv hmode hjson h
    exact ⟨n, C', q', h'⟩

/-! ### What is stored -/

omit [DecidableEq ι] in
theorem Inv.folds_iff (h : Inv parse σ n C q) :
    Folds parse σ ↔ ∀ p, (patches parse σ).head? = some p → p.NoNulls := by
  have hmerged : ∀ k e, σ.committed[k]? = some e →
      parse (payloadOf e.2) = Json.merged ((patches parse σ).take (k + 1)) := by
    intro k e hk
    obtain ⟨pkt, hdata, hsize, hvalue⟩ := h.stores k e hk
    rw [hdata, payloadOf_wire hsize]
    exact hvalue
  rw [← Json.merged_eq_folded_iff, Folds, ← h.length]
  constructor
  · intro hfolds k hk
    have hget : σ.committed[k]? = some σ.committed[k] := List.getElem?_eq_getElem hk
    rw [← hmerged k _ hget]
    exact hfolds k _ hget
  · intro hall k e hk
    rw [hmerged k e hk]
    exact hall k (List.getElem?_eq_some_iff.mp hk).1

/-- **Patches of a config**, in every state that any run reaches: each call that has returned A0_OK
has added one packet, of which the newest is that of the topic; and their values have always
been those of all patches so far on the empty object, which have no null members, if and only
if the first patch has none. -/
theorem config_folds_iff (hmode : mode ≠ .readonly) (hjson : json.Faithful parse value)
    (hprogram : ∀ i, ∀ pkt ∈ program i, ∃ p, parse pkt.payload = some p)
    (hσ : (runs json mode id data program).Reach σ) :
    σ.committed.length = (patches parse σ).length ∧
      (logOf σ.host.mem (workingState σ.host.mem)).getLast? = σ.committed.getLast? ∧
      (Folds parse σ ↔ ∀ p, (patches parse σ).head? = some p → p.NoNulls) ∧
      (Folds parse σ → ∀ e ∈ σ.committed, ∃ v, parse (payloadOf e.2) = some v ∧ v.NoNulls) := by
  obtain ⟨n, C, q, h⟩ := (isInvariant hmode hjson hprogram).reach hσ
  refine ⟨h.length, ?_, h.folds_iff, ?_⟩
  · rw [h.ready.log_eq]
    exact h.newest
  · intro hfolds e he
    obtain ⟨k, hk⟩ := List.mem_iff_getElem?.mp he
    exact ⟨_, hfolds k e hk, Json.noNulls_folded _⟩

/-! ### Documents with one member -/

/-- The empty object, and those with one member, which is the number one or null. -/
inductive OneMember where
  | empty | one | null
  deriving DecidableEq

namespace OneMember

/-- The text, as it is printed. -/
def text : OneMember → List UInt8
  | empty => (CString.ofString "\x7b\x7d").bytes
  | one => (CString.ofString "\x7b\"a\":1\x7d").bytes
  | null => (CString.ofString "\x7b\"a\":null\x7d").bytes

/-- The member. -/
def member : OneMember → Option (Json String ℕ)
  | empty => none
  | one => some (.atom 1)
  | null => some .null

/-- The value. -/
def toJson (d : OneMember) : Json String ℕ := .object fun k => if k = "a" then d.member else none

/-- The document with a text. -/
def ofText (text : List UInt8) : Option OneMember := [empty, one, null].find? fun d => d.text = text

/-- A patch. -/
def mergePatch (d : OneMember) : OneMember → OneMember
  | empty => d
  | one => one
  | null => empty

/-- The JSON library on them. -/
def library : Yyjson OneMember where
  readMaxMemoryUsage n := 13 * n + 256
  read text := (ofText text).elim (.error "unexpected character") .ok
  mergePatch := mergePatch
  write d _ := .ok d.text

/-- The value of a text. -/
def parseText (text : List UInt8) : Option (Json String ℕ) := (ofText text).map toJson

theorem ofText_text (d : OneMember) : ofText d.text = some d := by
  cases d <;> decide +kernel

theorem parseText_text (d : OneMember) : parseText d.text = some d.toJson := by
  rw [parseText, ofText_text, Option.map_some]

theorem noNulls_iff {d : OneMember} : d.toJson.NoNulls ↔ d ≠ null := by
  constructor
  · rintro hno rfl
    have hmember : Json.NoNullAt (member null) := hno "a"
    cases hmember.1
  · intro hne k
    show Json.NoNullAt (if k = "a" then d.member else none)
    split_ifs
    · cases d with
      | empty => trivial
      | one => exact ⟨rfl, trivial⟩
      | null => exact absurd rfl hne
    · trivial

theorem library_faithful : library.Faithful parseText toJson := by
  constructor
  · intro text v hv
    rw [parseText, Option.map_eq_some_iff] at hv
    obtain ⟨d, hd, rfl⟩ := hv
    exact ⟨d, by simp only [library, hd, Option.elim_some], rfl⟩
  · intro t p
    have hmember : (t.mergePatch p).member = Json.mergeMember t.member p.member := by
      cases t <;> cases p <;> rfl
    refine congrArg Json.object (funext fun k => ?_)
    show (if k = "a" then (t.mergePatch p).member else none) =
      Json.mergeMember (if k = "a" then t.member else none) (if k = "a" then p.member else none)
    rw [hmember]
    split_ifs <;> rfl
  · rintro d size text ⟨⟩
    exact parseText_text d

end OneMember

/-! ### One call -/

/-- A topic of 1000 bytes, and a process with a patch. -/
def unpatched (d : OneMember) : Fleet Unit := ⟨fresh, fun _ => [bare d.text], fun _ => none, []⟩

/-- What the process has at the lock. -/
def early (d : OneMember) : Packet := (bare d.text).stampedEarly (.ofString "0") (.ofString "w") (.ofString "0")

/-- The process at the lock. -/
def atLock (d : OneMember) : Fleet Unit :=
  (unpatched d).begun () (bare d.text) (early d) [] ((setHeap 0 1).exec fresh)

/-- The call has returned. -/
def once (d : OneMember) : Fleet Unit :=
  (atLock d).ended OneMember.library .shared (cfgMergepatch (.ofString "w") 0).leaves ⟨5000, 0⟩ () (bare d.text)
    (early d)

/-- What it has written. -/
def late (d : OneMember) : Packet := (early d).stampedLate (.ofString "0") (.ofString "0")

theorem late_size (d : OneMember) : (late d).stats.serialSize < 816 := by
  cases d <;> decide +kernel

theorem atLock_locked (d : OneMember) : lockedPhase OneMember.library .shared ((lock .shared).exec (atLock d).host.mem)
    (atLock d).host.mono (cfgMergepatch (.ofString "w") 0).leaves (early d) = .append (late d) := by
  have hlock : Ready ((lock .shared).exec (atLock d).host.mem) 1000 [] [] 0 := lock_committed .shared fresh_ready
  have hzero : seqText 0 = some (.ofString "0") := by decide +kernel
  have hleaves : (cfgMergepatch (.ofString "w") 0).leaves =
    .jsonMergepatch :: ((addStandardHeaders (.ofString "w") 0).leaves ++ []) := rfl
  rw [hleaves, lockedPhase, hlock.empty_eq, List.isEmpty_nil, if_pos rfl, lockedPhase_standard, hlock.seqHigh_eq,
    List.length_nil, Nat.add_zero, hzero]
  rfl

/-- The calls of one process, with one patch. -/
abbrev oneCall (d : OneMember) : TransitionSystem (Fleet Unit) :=
  runs OneMember.library .shared (fun _ => .ofString "w") (fun _ => 0) fun _ => [bare d.text]

theorem atLock_small (d : OneMember) : ∀ pkt, lockedPhase OneMember.library .shared
    ((lock .shared).exec (atLock d).host.mem) (atLock d).host.mono (cfgMergepatch (.ofString "w") 0).leaves (early d) =
      .append pkt → pkt.stats.serialSize < 2 ^ 63 := by
  rw [atLock_locked]
  rintro _ ⟨⟩
  exact (late_size d).trans (by norm_num)

theorem atLock_size (d : OneMember) : arenaSize (atLock d).host.mem = 1000 := fresh_ready.arenaSize_eq

theorem once_reach (d : OneMember) : (oneCall d).Reach (once d) := by
  have hzero : seqText 0 = some (.ofString "0") := by decide +kernel
  have hbegins : processPhase (cfgMergepatch (.ofString "w") 0).leaves fresh (bare d.text) =
      some (early d, (setHeap 0 1).exec fresh) := by
    have hheap : fresh.heap 0 = 0 := rfl
    rw [show processPhase (cfgMergepatch (.ofString "w") 0).leaves fresh (bare d.text) =
      processPhase ((addStandardHeaders (.ofString "w") 0).leaves ++ []) fresh (bare d.text) from rfl,
      processPhase_standard, hheap, hzero]
    rfl
  have hfirst : (oneCall d).Reach (unpatched d) := .init ⟨⟨1000, by norm_num, fresh_mem⟩, rfl, fun _ => rfl, rfl⟩
  have hsecond : (oneCall d).Reach (atLock d) := by
    refine .step hfirst ⟨.begins () (bare d.text) (early d) [] _ rfl rfl hbegins, ?_⟩
    rintro i pkt pkt' pkt'' ⟨⟩
  have hready : Ready (atLock d).host.mem 1000 [] [] 0 := fresh_ready
  have hreturns := critical_returns ⟨5000, 0⟩ (by decide) hready (by norm_num)
    (by rw [atLock_locked]; exact Outcome.noConfusion) (atLock_small d)
  refine .step hsecond
    ⟨.returns () (bare d.text) (early d) ⟨5000, 0⟩ rfl hreturns (atLock_small d) (by norm_num) ?_, ?_⟩
  · rw [atLock_size]
    norm_num
  · intro i pkt pkt' pkt'' hpending _ hphase
    obtain ⟨rfl, rfl⟩ : bare d.text = pkt ∧ early d = pkt' := Prod.mk.inj (Option.some.inj hpending)
    rw [atLock_locked] at hphase
    cases hphase
    have hlt := late_size d
    rw [atLock_size]
    omega

/-- Its patch is the only one. -/
theorem once_patches (d : OneMember) : patches OneMember.parseText (once d) = [d.toJson] := by
  have hlock : Ready ((lock .shared).exec (atLock d).host.mem) 1000 [] [] 0 := lock_committed .shared fresh_ready
  have hlt := late_size d
  obtain ⟨r, hreturned, -, hpkt, hstatus, -⟩ := Fleet.ended_status OneMember.library .shared
    (cfgMergepatch (.ofString "w") 0).leaves ⟨5000, 0⟩ (atLock d) () (bare d.text) (early d)
  rw [atLock_locked, Outcome.eval,
    (append_packet ⟨5000, 0⟩ (by decide) hlock (by norm_num) (by omega) (by omega)).1] at hstatus
  have hpatches : patches OneMember.parseText (once d) = _ := patches_returned hreturned
  rw [hpatches, if_pos hstatus, hpkt, show (bare d.text).payload = d.text from rfl, OneMember.parseText_text]
  rfl

theorem once_inv (d : OneMember) : ∃ n C q, Inv OneMember.parseText (once d) n C q := by
  refine (isInvariant (by decide) OneMember.library_faithful ?_).reach (once_reach d)
  rintro _ pkt hpkt
  rw [List.mem_singleton.mp hpkt]
  exact ⟨_, OneMember.parseText_text d⟩

/-- A first patch that removes a member is the config. -/
theorem not_folds : OneMember.library.Faithful OneMember.parseText OneMember.toJson ∧
    ∃ σ, (oneCall .null).Reach σ ∧ patches OneMember.parseText σ = [OneMember.null.toJson] ∧
      ¬ Folds OneMember.parseText σ := by
  refine ⟨OneMember.library_faithful, once .null, once_reach .null, once_patches .null, ?_⟩
  obtain ⟨n, C, q, h⟩ := once_inv .null
  rw [h.folds_iff, once_patches]
  exact fun hno => OneMember.noNulls_iff.mp (hno _ rfl) rfl

/-- One that sets a member is. -/
theorem config_folds_iff_one : (oneCall .one).Reach (once .one) ∧ (once .one).committed.length = 1 ∧
    Folds OneMember.parseText (once .one) := by
  have hprogram : ∀ (_ : Unit), ∀ pkt ∈ [bare OneMember.one.text], ∃ p, OneMember.parseText pkt.payload = some p := by
    rintro _ pkt hpkt
    rw [List.mem_singleton.mp hpkt]
    exact ⟨_, OneMember.parseText_text .one⟩
  obtain ⟨hlength, -, hfolds, -⟩ := config_folds_iff (by decide) OneMember.library_faithful hprogram (once_reach .one)
  rw [once_patches] at hlength hfolds
  refine ⟨once_reach .one, hlength, hfolds.mpr ?_⟩
  rintro _ ⟨⟩
  exact OneMember.noNulls_iff.mpr (by decide)

end Cfg

end AlephZero
