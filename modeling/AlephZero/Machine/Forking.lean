import AlephZero.Machine.Threads
import Mathlib.Logic.Function.Iterate
import Mathlib.Order.Nat

/-!
# What is kept for each thread, over forks

The threads of any number of processes, and something that a library keeps in the storage of
each thread: a function makes it where it is missing. A fork copies the storage of the thread
that forks, so that its child has what was made for another thread, unless a handler takes
it away.

## The model

A thread is the first one of a program, is started by one of its process, or is the child of a
fork. The handlers that the process has registered with `pthread_atfork` run in the child,
before it does anything else. They are registered under `pthread_once`, which one thread begins
and for whose end the others wait; in a child, one that was not at its end begins anew. What
the kernel keeps for a thread is not copied. The function is called by threads that are in no
call, and only these fork; what it returns is remembered.

## What is proved

* `Sound.isInvariant` — whenever the function returns, what the thread has was made for it, if
  the function registers a handler that takes away what was made.
* `Steady.isInvariant` — where there is no handler, but only threads fork that have nothing yet,
  each thread is given the values that follow on the one that was made for it.
* `Streamed.nodup` — so all that is given is different, if what is made is far enough apart.
-/

namespace Forking

/-- The storage of a thread, and what the kernel keeps for it. -/
structure Own (T K : Type) where
  tls : T
  kern : K

/-- How something is made. -/
inductive Instr (ι T K : Type) where
  /-- `pthread_once`, of what registers the handler. -/
  | once
  | store (f : ι → Own T K → Own T K)

/-- What is kept for each thread. -/
structure Cache (ι T K : Type) where
  /-- What there is at first. -/
  fresh : Own T K
  /-- The storage says so. -/
  filled : T → Bool
  /-- The handler. -/
  reset : T → T
  fill : List (Instr ι T K)
  /-- What the function leaves. -/
  next : T → T
  /-- What others do with it, in a thread. -/
  uses : Own T K → Own T K → Prop

/-- How far `pthread_once` is. -/
inductive Once where
  | fresh
  | running
  | done
  deriving DecidableEq

structure Process where
  once : Once
  /-- How often the handler has been registered. -/
  handlers : ℕ

/-- The process of the child. -/
def Process.child (p : Process) : Process := { p with once := if p.once = .done then .done else .fresh }

/-- Where a thread is. -/
inductive Pc (ι T K : Type) where
  | unborn
  /-- In no call. -/
  | out
  /-- This is to be done yet. -/
  | filling (rest : List (Instr ι T K))
  /-- In `pthread_once`, before `pthread_atfork`. -/
  | registering (rest : List (Instr ι T K))
  /-- Behind it. -/
  | registered (rest : List (Instr ι T K))
  | dead

namespace Pc

variable {ι T K : Type}

def isAlive : Pc ι T K → Bool
  | .unborn | .dead => false
  | _ => true

/-- What is to be done yet. -/
def rest : Pc ι T K → Option (List (Instr ι T K))
  | .filling rest | .registering rest | .registered rest => some rest
  | _ => none

end Pc

structure Thread (ι π T K : Type) where
  proc : π
  own : Own T K
  pc : Pc ι T K

/-- What the threads `ι` share, in the processes `π`. -/
structure Shared (ι π T K : Type) where
  procs : π → Option Process
  /-- To whom the function has returned, the last one first, and what the thread had then. -/
  returned : List (ι × Own T K)

variable {ι π T K : Type}

def Shared.setProc [DecidableEq π] (s : Shared ι π T K) (p : π) (P : Process) : Shared ι π T K :=
  { s with procs := Function.update s.procs p (some P) }

def Shared.give (s : Shared ι π T K) (i : ι) (o : Own T K) : Shared ι π T K :=
  { s with returned := (i, o) :: s.returned }

def Cache.left (C : Cache ι T K) (o : Own T K) : Own T K := { o with tls := C.next o.tls }

/-- The steps of a thread; those fork of whom `forks` holds. -/
inductive Act [DecidableEq π] (C : Cache ι T K) (forks : T → Prop) (i : ι)
    (σ : Threads ι (Shared ι π T K) (Thread ι π T K)) : Shared ι π T K → Thread ι π T K → Prop where
  /-- It is the first one of a program. -/
  | launched (q : π) (hpc : (σ.loc i).pc = .unborn) (hq : σ.shared.procs q = none) :
      Act C forks i σ (σ.shared.setProc q ⟨.fresh, 0⟩) ⟨q, C.fresh, .out⟩
  | spawned (j : ι) (hpc : (σ.loc i).pc = .unborn) (hj : (σ.loc j).pc.isAlive = true) :
      Act C forks i σ σ.shared ⟨(σ.loc j).proc, C.fresh, .out⟩
  | forked (j : ι) (q : π) (P : Process) (hpc : (σ.loc i).pc = .unborn) (hj : (σ.loc j).pc = .out)
      (hP : σ.shared.procs (σ.loc j).proc = some P) (hq : σ.shared.procs q = none)
      (hforks : forks (σ.loc j).own.tls) :
      Act C forks i σ (σ.shared.setProc q P.child)
        ⟨q, ⟨C.reset^[P.handlers] (σ.loc j).own.tls, C.fresh.kern⟩, .out⟩
  | uses (o : Own T K) (hpc : (σ.loc i).pc = .out) (ho : C.uses (σ.loc i).own o) :
      Act C forks i σ σ.shared ⟨(σ.loc i).proc, o, .out⟩
  /-- The function is called, and there is something. -/
  | finds (hpc : (σ.loc i).pc = .out) (hfilled : C.filled (σ.loc i).own.tls = true) :
      Act C forks i σ (σ.shared.give i (σ.loc i).own) ⟨(σ.loc i).proc, C.left (σ.loc i).own, .out⟩
  /-- There is nothing. -/
  | misses (hpc : (σ.loc i).pc = .out) (hfilled : C.filled (σ.loc i).own.tls = false) :
      Act C forks i σ σ.shared ⟨(σ.loc i).proc, (σ.loc i).own, .filling C.fill⟩
  | stores (f : ι → Own T K → Own T K) (rest : List (Instr ι T K))
      (hpc : (σ.loc i).pc = .filling (.store f :: rest)) :
      Act C forks i σ σ.shared ⟨(σ.loc i).proc, f i (σ.loc i).own, .filling rest⟩
  /-- `pthread_once` returns at once. -/
  | onceDone (rest : List (Instr ι T K)) (P : Process) (hpc : (σ.loc i).pc = .filling (.once :: rest))
      (hP : σ.shared.procs (σ.loc i).proc = some P) (honce : P.once = .done) :
      Act C forks i σ σ.shared ⟨(σ.loc i).proc, (σ.loc i).own, .filling rest⟩
  | onceBegins (rest : List (Instr ι T K)) (P : Process) (hpc : (σ.loc i).pc = .filling (.once :: rest))
      (hP : σ.shared.procs (σ.loc i).proc = some P) (honce : P.once = .fresh) :
      Act C forks i σ (σ.shared.setProc (σ.loc i).proc { P with once := .running })
        ⟨(σ.loc i).proc, (σ.loc i).own, .registering rest⟩
  | registers (rest : List (Instr ι T K)) (P : Process) (hpc : (σ.loc i).pc = .registering rest)
      (hP : σ.shared.procs (σ.loc i).proc = some P) :
      Act C forks i σ (σ.shared.setProc (σ.loc i).proc { P with handlers := P.handlers + 1 })
        ⟨(σ.loc i).proc, (σ.loc i).own, .registered rest⟩
  | onceEnds (rest : List (Instr ι T K)) (P : Process) (hpc : (σ.loc i).pc = .registered rest)
      (hP : σ.shared.procs (σ.loc i).proc = some P) :
      Act C forks i σ (σ.shared.setProc (σ.loc i).proc { P with once := .done })
        ⟨(σ.loc i).proc, (σ.loc i).own, .filling rest⟩
  | returns (hpc : (σ.loc i).pc = .filling []) :
      Act C forks i σ (σ.shared.give i (σ.loc i).own) ⟨(σ.loc i).proc, C.left (σ.loc i).own, .out⟩
  | dies (hpc : (σ.loc i).pc = .out) : Act C forks i σ σ.shared ⟨(σ.loc i).proc, (σ.loc i).own, .dead⟩

/-- The runs: at first nobody has called the function, in the processes that there are. -/
def runs [DecidableEq ι] [DecidableEq π] (C : Cache ι T K) (forks : T → Prop) :
    TransitionSystem (Threads ι (Shared ι π T K) (Thread ι π T K)) :=
  Threads.system (fun s loc => s = ⟨fun _ => none, []⟩ ∧ ∀ i, (loc i).pc = .unborn) (Act C forks)

/-- What is made, when this has been done yet. -/
def run (i : ι) : List (Instr ι T K) → Own T K → Own T K
  | [], o => o
  | .once :: rest, o => run i rest o
  | .store f :: rest, o => run i rest (f i o)

variable {C : Cache ι T K} {forks : T → Prop} {i j : ι} {s s' : Shared ι π T K} {l l' : Thread ι π T K}
  {σ : Threads ι (Shared ι π T K) (Thread ι π T K)}

/-! ### Handlers -/

/-- The function makes what is right, and registers a handler that takes away what was made. -/
structure Sound (C : Cache ι T K) (Right : ι → Own T K → Prop) : Prop where
  fresh : C.filled C.fresh.tls = false
  reset : ∀ t, C.filled (C.reset t) = false
  once : .once ∈ C.fill
  fill : ∀ i o, C.filled o.tls = false → C.filled (run i C.fill o).tls = true ∧ Right i (run i C.fill o)
  next : ∀ i o, C.filled o.tls = true → Right i o → Right i (C.left o)
  uses : ∀ i o o', C.uses o o' → C.filled o'.tls = true → C.filled o.tls = true ∧ (Right i o → Right i o')

/-- The process has registered the handler. -/
def Shared.Registered (s : Shared ι π T K) (p : π) : Prop := ∃ P, s.procs p = some P ∧ 0 < P.handlers

/-- No process has ended, and none has lost handlers. -/
def Shared.Grows (s s' : Shared ι π T K) : Prop :=
  ∀ p P, s.procs p = some P → ∃ P', s'.procs p = some P' ∧ P.handlers ≤ P'.handlers

/-- Where `pthread_once` is done, the handler is registered; and what was given was right. -/
structure Shared.Good (C : Cache ι T K) (Right : ι → Own T K → Prop) (s : Shared ι π T K) : Prop where
  once : ∀ p P, s.procs p = some P → P.once = .done → 0 < P.handlers
  returned : ∀ r ∈ s.returned, C.filled r.2.tls = true ∧ Right r.1 r.2

/-- What a thread has was made for it, or will be; and then the handler is registered. -/
structure Thread.Good (C : Cache ι T K) (Right : ι → Own T K → Prop) (i : ι) (s : Shared ι π T K)
    (l : Thread ι π T K) : Prop where
  out : l.pc = .out → C.filled l.own.tls = true → Right i l.own ∧ s.Registered l.proc
  fills : ∀ rest, l.pc.rest = some rest → C.filled (run i rest l.own).tls = true ∧ Right i (run i rest l.own)
  once : ∀ rest, l.pc = .filling rest → .once ∈ rest ∨ s.Registered l.proc
  registered : ∀ rest, l.pc = .registered rest → s.Registered l.proc

theorem Shared.Grows.refl (s : Shared ι π T K) : s.Grows s := fun _ P h => ⟨P, h, le_rfl⟩

theorem Shared.Registered.grows {p : π} (h : s.Registered p) (hs : s.Grows s') : s'.Registered p := by
  obtain ⟨P, hP, hpos⟩ := h
  obtain ⟨P', hP', hle⟩ := hs p P hP
  exact ⟨P', hP', hpos.trans_le hle⟩

theorem Shared.setProc_apply [DecidableEq π] (p p' : π) (P : Process) :
    (s.setProc p P).procs p' = if p' = p then some P else s.procs p' := Function.update_apply ..

theorem grows_setProc [DecidableEq π] {p : π} {P : Process}
    (h : ∀ P₀, s.procs p = some P₀ → P₀.handlers ≤ P.handlers) : s.Grows (s.setProc p P) := by
  intro p' P' hP'
  rw [Shared.setProc_apply]
  split_ifs with hp
  · subst hp
    exact ⟨P, rfl, h P' hP'⟩
  · exact ⟨P', hP', le_rfl⟩

theorem grows_new [DecidableEq π] {q : π} {P : Process} (hq : s.procs q = none) : s.Grows (s.setProc q P) :=
  grows_setProc fun _ h => by
    rw [hq] at h
    cases h

/-- A thread goes on in its process. -/
theorem grows_same [DecidableEq π] {p : π} {P P' : Process} (hP : s.procs p = some P) (hle : P.handlers ≤ P'.handlers) :
    s.Grows (s.setProc p P') :=
  grows_setProc fun P₀ h => by
    rw [hP] at h
    cases h
    exact hle

theorem Act.grows [DecidableEq π] (h : Act C forks i σ s l) : σ.shared.Grows s := by
  cases h with
  | launched q _ hq => exact grows_new hq
  | forked j q P _ _ _ hq => exact grows_new hq
  | onceBegins rest P _ hP => exact grows_same hP le_rfl
  | registers rest P _ hP => exact grows_same hP (Nat.le_succ _)
  | onceEnds rest P _ hP => exact grows_same hP le_rfl
  | spawned | uses | finds | misses | stores | onceDone | returns | dies => exact Shared.Grows.refl _

/-- What other threads do keeps what is known of a thread. -/
theorem Thread.Good.grows {Right : ι → Own T K → Prop} (h : l.Good C Right i s) (hs : s.Grows s') :
    l.Good C Right i s' where
  out hpc hf := ⟨(h.out hpc hf).1, (h.out hpc hf).2.grows hs⟩
  fills := h.fills
  once rest hpc := (h.once rest hpc).imp_right fun hr => hr.grows hs
  registered rest hpc := (h.registered rest hpc).grows hs

/-- A thread is in a process. -/
def Thread.Housed (s : Shared ι π T K) (l : Thread ι π T K) : Prop :=
  l.pc.isAlive = true → ∃ P, s.procs l.proc = some P

theorem Thread.Housed.grows (h : l.Housed s) (hs : s.Grows s') : l.Housed s' := by
  intro ha
  obtain ⟨P, hP⟩ := h ha
  obtain ⟨P', hP', -⟩ := hs _ P hP
  exact ⟨P', hP'⟩

theorem Shared.Good.setProc [DecidableEq π] {Right : ι → Own T K → Prop} {p : π} {P : Process} (h : s.Good C Right)
    (hP : P.once = .done → 0 < P.handlers) : (s.setProc p P).Good C Right where
  once p' P' hP' hdone := by
    rw [Shared.setProc_apply] at hP'
    split_ifs at hP'
    · cases hP'
      exact hP hdone
    · exact h.once p' P' hP' hdone
  returned := h.returned

theorem Shared.Good.give {Right : ι → Own T K → Prop} {o : Own T K} (h : s.Good C Right)
    (ho : C.filled o.tls = true ∧ Right i o) : (s.give i o).Good C Right where
  once := h.once
  returned := List.forall_mem_cons.mpr ⟨ho, h.returned⟩

/-- What is shared stays good. -/
theorem Act.shared_good [DecidableEq π] {Right : ι → Own T K → Prop} (h : Act C forks i σ s l)
    (hG : σ.shared.Good C Right) (hI : (σ.loc i).Good C Right i σ.shared) : s.Good C Right := by
  cases h with
  | launched q => exact hG.setProc (fun hc => by cases hc)
  | forked j q P _ _ hP =>
    refine hG.setProc fun hdone => hG.once _ P hP ?_
    by_contra hne
    rw [Process.child, if_neg hne] at hdone
    cases hdone
  | finds hpc hfilled => exact hG.give ⟨hfilled, (hI.out hpc hfilled).1⟩
  | returns hpc => exact hG.give (hI.fills [] (by rw [hpc]; rfl))
  | onceBegins rest P => exact hG.setProc (fun hc => by cases hc)
  | registers rest P => exact hG.setProc fun _ => Nat.succ_pos _
  | onceEnds rest P hpc hP =>
    obtain ⟨P', hP', hpos⟩ := hI.registered rest hpc
    rw [hP] at hP'
    cases hP'
    exact hG.setProc fun _ => hpos
  | spawned | uses | misses | stores | onceDone | dies => exact hG

/-- A thread that is in no call. -/
theorem Thread.good_out {Right : ι → Own T K → Prop} {p : π} {o : Own T K}
    (ho : C.filled o.tls = true → Right i o ∧ s.Registered p) : Thread.Good C Right i s ⟨p, o, .out⟩ where
  out _ := ho
  fills  _ hr := by cases hr
  once  _ hr := by cases hr
  registered  _ hr := by cases hr

/-- A thread that has something to do yet. -/
theorem Thread.good_filling {Right : ι → Own T K → Prop} {p : π} {o : Own T K} {rest : List (Instr ι T K)}
    (hfills : C.filled (run i rest o).tls = true ∧ Right i (run i rest o))
    (honce : .once ∈ rest ∨ s.Registered p) : Thread.Good C Right i s ⟨p, o, .filling rest⟩ where
  out  hc := by cases hc
  fills := by
    rintro rest' ⟨⟩
    exact hfills
  once := by
    rintro rest' ⟨⟩
    exact honce
  registered  _ hr := by cases hr

/-- The child of a fork has nothing: if its parent had, the handler has run. -/
theorem not_filled_child {Right : ι → Own T K → Prop} {P : Process} (hS : Sound C Right)
    (hj : l.Good C Right j s) (hpc : l.pc = .out) (hP : s.procs l.proc = some P) :
    C.filled (C.reset^[P.handlers] l.own.tls) = false := by
  cases hn : P.handlers with
  | zero =>
    rw [Function.iterate_zero_apply, Bool.eq_false_iff]
    intro hfilled
    obtain ⟨P', hP', hpos⟩ := (hj.out hpc hfilled).2
    rw [hP] at hP'
    cases hP'
    exact hpos.ne' hn
  | succ n =>
    rw [Function.iterate_succ_apply']
    exact hS.reset _

/-- A thread stays good when it does a step. -/
theorem Act.good [DecidableEq π] {Right : ι → Own T K → Prop} (hS : Sound C Right) (h : Act C forks i σ s l)
    (hG : σ.shared.Good C Right) (hI : ∀ j, (σ.loc j).Good C Right j σ.shared) : l.Good C Right i s := by
  cases h with
  | launched | spawned =>
    refine Thread.good_out fun hf => ?_
    rw [hS.fresh] at hf
    cases hf
  | forked j q P _ hj hP =>
    refine Thread.good_out fun hf => ?_
    have hnone : C.filled (C.reset^[P.handlers] (σ.loc j).own.tls) = false := not_filled_child hS (hI j) hj hP
    rw [show C.filled (C.reset^[P.handlers] (σ.loc j).own.tls) = true from hf] at hnone
    cases hnone
  | uses o hpc ho =>
    refine Thread.good_out fun hf => ?_
    obtain ⟨hfilled, hright⟩ := hS.uses i _ o ho hf
    have hout := (hI i).out hpc hfilled
    exact ⟨hright hout.1, hout.2⟩
  | finds hpc hfilled =>
    have hout := (hI i).out hpc hfilled
    exact Thread.good_out fun _ => ⟨hS.next i _ hfilled hout.1, hout.2⟩
  | misses _ hfilled => exact Thread.good_filling (hS.fill i _ hfilled) (.inl hS.once)
  | stores f rest hpc =>
    refine Thread.good_filling ((hI i).fills _ (by rw [hpc]; rfl)) ?_
    exact ((hI i).once _ hpc).imp_left fun hm => (List.mem_cons.mp hm).resolve_left (fun hc => by cases hc)
  | onceDone rest P hpc hP honce =>
    refine Thread.good_filling ((hI i).fills (.once :: rest) (by rw [hpc]; rfl)) ?_
    exact .inr ⟨P, hP, hG.once _ P hP honce⟩
  | onceBegins rest P hpc =>
    refine ⟨(fun hc => by cases hc), ?_, (fun _ hc => by cases hc), (fun _ hc => by cases hc)⟩
    rintro _ ⟨⟩
    exact (hI i).fills (.once :: rest) (by rw [hpc]; rfl)
  | registers rest P hpc =>
    refine ⟨(fun hc => by cases hc), ?_, (fun _ hc => by cases hc), ?_⟩
    · rintro _ ⟨⟩
      exact (hI i).fills _ (by rw [hpc]; rfl)
    · exact fun _ _ => ⟨_, Function.update_self .., Nat.succ_pos _⟩
  | onceEnds rest P hpc hP =>
    refine Thread.good_filling ((hI i).fills _ (by rw [hpc]; rfl)) (.inr ?_)
    exact ((hI i).registered rest hpc).grows (grows_same hP le_rfl)
  | returns hpc =>
    obtain ⟨hfilled, hright⟩ := (hI i).fills [] (by rw [hpc]; rfl)
    refine Thread.good_out fun _ => ⟨hS.next i _ hfilled hright, ?_⟩
    exact ((hI i).once [] hpc).resolve_left List.not_mem_nil
  | dies hpc =>
    exact ⟨(fun hc => by cases hc), (fun _ hc => by cases hc), (fun _ hc => by cases hc), (fun _ hc => by cases hc)⟩

/-- Whenever the function has returned, what the thread had was made for it. -/
theorem Sound.isInvariant [DecidableEq ι] [DecidableEq π] {Right : ι → Own T K → Prop} (hS : Sound C Right) :
    (runs (π := π) C forks).IsInvariant fun σ =>
      σ.shared.Good C Right ∧ ∀ i, (σ.loc i).Good C Right i σ.shared := by
  refine Threads.isInvariant_of (I := fun i s l => Thread.Good C Right i s l) ?_ ?_ ?_
  · rintro s loc ⟨rfl, hpc⟩
    refine ⟨⟨by rintro p P ⟨⟩, List.forall_mem_nil _⟩, fun i => ?_⟩
    constructor <;> simp [hpc i, Pc.rest]
  · exact fun i σ s l hact hG hI => ⟨hact.shared_good hG (hI i), hact.good hS hG hI⟩
  · exact fun i j σ s l _ hact hI => (hI j).grows hact.grows

/-! ### Streams -/

/-- The function makes `made`, and gives what follows on it; nothing that was made is copied. -/
structure Steady (C : Cache ι T K) (forks : T → Prop) (made : ι → T) : Prop where
  fresh : C.filled C.fresh.tls = false
  reset : ∀ t, C.filled t = false → C.filled (C.reset t) = false
  fill : ∀ i o, C.filled o.tls = false → C.filled (run i C.fill o).tls = true ∧ (run i C.fill o).tls = made i
  next : ∀ t, C.filled t = true → C.filled (C.next t) = true
  uses : ∀ o o', C.uses o o' → o'.tls = o.tls
  forks : ∀ t, forks t → C.filled t = false

theorem reset_not_filled {made : ι → T} (hS : Steady C forks made) {t : T} (ht : C.filled t = false) (n : ℕ) :
    C.filled (C.reset^[n] t) = false := by
  induction n with
  | zero => exact ht
  | succ n ih =>
    rw [Function.iterate_succ_apply']
    exact hS.reset _ ih

/-- How often a thread has been given something. -/
def served [DecidableEq ι] (i : ι) (returned : List (ι × Own T K)) : ℕ := (returned.map Prod.fst).count i

/-- Each has been given what follows on what was made for it. -/
def Streamed [DecidableEq ι] (C : Cache ι T K) (made : ι → T) : List (ι × Own T K) → Prop
  | [] => True
  | r :: past => r.2.tls = C.next^[served r.1 past] (made r.1) ∧ Streamed C made past

/-- What a thread has is what it will be given next. -/
structure Thread.Streams [DecidableEq ι] (C : Cache ι T K) (made : ι → T) (i : ι) (s : Shared ι π T K)
    (l : Thread ι π T K) : Prop where
  unborn : l.pc = .unborn → served i s.returned = 0
  out : l.pc = .out → C.filled l.own.tls = true → l.own.tls = C.next^[served i s.returned] (made i)
  empty : l.pc = .out → C.filled l.own.tls = false → served i s.returned = 0
  fills : ∀ rest, l.pc.rest = some rest → served i s.returned = 0 ∧
    C.filled (run i rest l.own).tls = true ∧ (run i rest l.own).tls = made i

section Streams

variable [DecidableEq ι] {made : ι → T}

theorem served_give_self {o : Own T K} : served i (s.give i o).returned = served i s.returned + 1 :=
  List.count_cons_self ..

theorem served_give_of_ne {o : Own T K} (h : j ≠ i) : served j (s.give i o).returned = served j s.returned :=
  List.count_cons_of_ne h.symm

theorem Act.served_of_ne [DecidableEq π] (h : Act C forks i σ s l) (hj : j ≠ i) :
    served j s.returned = served j σ.shared.returned := by
  cases h with
  | finds | returns => exact served_give_of_ne hj
  | _ => rfl

theorem Thread.Streams.of_served (h : l.Streams C made i s) (hs : served i s'.returned = served i s.returned) :
    l.Streams C made i s' := by
  constructor
  · exact fun hpc => hs.trans (h.unborn hpc)
  · exact fun hpc hf => by rw [hs, h.out hpc hf]
  · exact fun hpc hf => hs.trans (h.empty hpc hf)
  · exact fun rest hr => ⟨hs.trans (h.fills rest hr).1, (h.fills rest hr).2⟩

/-- A thread in no call, that has nothing, and has been given nothing. -/
theorem Thread.streams_empty {p : π} {o : Own T K} (ho : C.filled o.tls = false) (hn : served i s.returned = 0) :
    Thread.Streams C made i s ⟨p, o, .out⟩ where
  unborn _ := hn
  out _ hf := by
    rw [ho] at hf
    cases hf
  empty _ _ := hn
  fills  _ hr := by cases hr

/-- A thread in no call, that has something. -/
theorem Thread.streams_out {p : π} {o : Own T K} (ho : C.filled o.tls = true)
    (hn : o.tls = C.next^[served i s.returned] (made i)) : Thread.Streams C made i s ⟨p, o, .out⟩ where
  unborn  hc := by cases hc
  out _ _ := hn
  empty _ hf := by
    rw [ho] at hf
    cases hf
  fills  _ hr := by cases hr

theorem Thread.streams_rest {p : π} {o : Own T K} {pc : Pc ι T K} {rest : List (Instr ι T K)}
    (hpc : pc.rest = some rest)
    (h : served i s.returned = 0 ∧ C.filled (run i rest o).tls = true ∧ (run i rest o).tls = made i) :
    Thread.Streams C made i s ⟨p, o, pc⟩ := by
  cases pc with
  | unborn | out | dead => cases hpc
  | filling | registering | registered =>
    refine ⟨(fun hc => by cases hc), (fun hc => by cases hc), (fun hc => by cases hc), ?_⟩
    rintro rest' hr
    rw [hpc] at hr
    cases hr
    exact h

/-- The next value is given. -/
theorem Thread.streams_give {p : π} {o : Own T K} (hS : Steady C forks made) (ho : C.filled o.tls = true)
    (hn : o.tls = C.next^[served i s.returned] (made i)) :
    Thread.Streams C made i (s.give i o) ⟨p, C.left o, .out⟩ := by
  refine Thread.streams_out (hS.next _ ho) ?_
  rw [served_give_self, Function.iterate_succ_apply', ← hn]
  rfl

theorem Act.streams [DecidableEq π] (hS : Steady C forks made) (h : Act C forks i σ s l)
    (hG : Streamed C made σ.shared.returned) (hI : (σ.loc i).Streams C made i σ.shared) :
    Streamed C made s.returned ∧ l.Streams C made i s := by
  cases h with
  | launched q hpc => exact ⟨hG, Thread.streams_empty hS.fresh (hI.unborn hpc)⟩
  | spawned j hpc => exact ⟨hG, Thread.streams_empty hS.fresh (hI.unborn hpc)⟩
  | forked j q P hpc _ _ _ hforks =>
    exact ⟨hG, Thread.streams_empty (reset_not_filled hS (hS.forks _ hforks) _) (hI.unborn hpc)⟩
  | uses o hpc ho =>
    have htls : o.tls = (σ.loc i).own.tls := hS.uses _ o ho
    refine ⟨hG, (fun hc => by cases hc), fun _ hf => ?_, fun _ hf => ?_, by rintro rest ⟨⟩⟩
    · have hf' : C.filled (σ.loc i).own.tls = true := htls ▸ hf
      exact htls.trans (hI.out hpc hf')
    · have hf' : C.filled (σ.loc i).own.tls = false := htls ▸ hf
      exact hI.empty hpc hf'
  | finds hpc hfilled =>
    have hown := hI.out hpc hfilled
    exact ⟨⟨hown, hG⟩, Thread.streams_give hS hfilled hown⟩
  | misses hpc hfilled =>
    exact ⟨hG, Thread.streams_rest rfl ⟨hI.empty hpc hfilled, hS.fill i _ hfilled⟩⟩
  | onceDone rest _ hpc | onceBegins rest _ hpc =>
    exact ⟨hG, Thread.streams_rest rfl (hI.fills (.once :: rest) (by rw [hpc]; rfl))⟩
  | stores f rest hpc => exact ⟨hG, Thread.streams_rest rfl (hI.fills _ (by rw [hpc]; rfl))⟩
  | registers rest _ hpc | onceEnds rest _ hpc =>
    exact ⟨hG, Thread.streams_rest rfl (hI.fills _ (by rw [hpc]; rfl))⟩
  | returns hpc =>
    obtain ⟨hnone, hfilled, hown⟩ := hI.fills [] (by rw [hpc]; rfl)
    have hgiven : (σ.loc i).own.tls = C.next^[served i σ.shared.returned] (made i) := by
      rw [hnone]
      exact hown
    exact ⟨⟨hgiven, hG⟩, Thread.streams_give hS hfilled hgiven⟩
  | dies hpc =>
    exact ⟨hG, (fun hc => by cases hc), (fun hc => by cases hc), (fun hc => by cases hc), (fun _ hc => by cases hc)⟩

/-- Each thread is given what follows on what was made for it. -/
theorem Steady.isInvariant [DecidableEq π] (hS : Steady C forks made) :
    (runs (π := π) C forks).IsInvariant fun σ =>
      Streamed C made σ.shared.returned ∧ ∀ i, (σ.loc i).Streams C made i σ.shared := by
  refine Threads.isInvariant_of (G := fun s => Streamed C made s.returned)
    (I := fun i s l => Thread.Streams C made i s l) ?_ ?_ ?_
  · rintro s loc ⟨rfl, hpc⟩
    refine ⟨trivial, fun i => ?_⟩
    constructor <;> simp [hpc i, Pc.rest, served]
  · exact fun i σ s l hact hG hI => hact.streams hS hG (hI i)
  · exact fun i j σ s l hj hact hI => (hI j).of_served (hact.served_of_ne hj)

/-- What has been given to a thread, it has been given at its turn. -/
theorem Streamed.mem {returned : List (ι × Own T K)} (h : Streamed C made returned) {r : ι × Own T K}
    (hr : r ∈ returned) : ∃ n < served r.1 returned, r.2.tls = C.next^[n] (made r.1) := by
  induction returned with
  | nil => cases hr
  | cons x past ih =>
    rcases List.mem_cons.mp hr with rfl | hr
    · exact ⟨served r.1 past, by simp [served], h.1⟩
    · obtain ⟨n, hn, heq⟩ := ih h.2 hr
      exact ⟨n, hn.trans_le (List.count_le_count_cons ..), heq⟩

/-- It has been given something at each turn. -/
theorem Streamed.exists_mem {returned : List (ι × Own T K)} (h : Streamed C made returned) {n : ℕ}
    (hn : n < served i returned) : ∃ r ∈ returned, r.1 = i ∧ r.2.tls = C.next^[n] (made i) := by
  induction returned with
  | nil => exact absurd hn (Nat.not_lt_zero n)
  | cons x past ih =>
    by_cases hx : x.1 = i ∧ n = served i past
    · obtain ⟨rfl, rfl⟩ := hx
      exact ⟨x, List.mem_cons_self, rfl, h.1⟩
    · have hlt : n < served i past := by
        rw [served, List.map_cons, List.count_cons] at hn
        rw [served] at hx ⊢
        split_ifs at hn with heq
        · rw [beq_iff_eq] at heq
          have hne : n ≠ (past.map Prod.fst).count i := fun hn => hx ⟨heq, hn⟩
          omega
        · exact hn
      obtain ⟨r, hr, hr'⟩ := ih h.2 hlt
      exact ⟨r, List.mem_cons_of_mem _ hr, hr'⟩

/-- All that has been given is different, if none is reached from two threads, or twice. -/
theorem Streamed.nodup {returned : List (ι × Own T K)} (h : Streamed C made returned)
    (hapart : ∀ i j m n, m < served i returned → n < served j returned →
      C.next^[m] (made i) = C.next^[n] (made j) → i = j ∧ m = n) :
    (returned.map fun r => r.2.tls).Nodup := by
  induction returned with
  | nil => exact List.nodup_nil
  | cons x past ih =>
    have hle : ∀ i, served i past ≤ served i (x :: past) := fun i => List.count_le_count_cons ..
    refine List.nodup_cons.mpr ⟨?_, ih h.2 fun i j m n hm hn =>
      hapart i j m n (hm.trans_le (hle i)) (hn.trans_le (hle j))⟩
    intro hmem
    obtain ⟨r, hr, heq⟩ := List.mem_map.mp hmem
    obtain ⟨n, hn, hr'⟩ := h.2.mem hr
    have hx : served x.1 past < served x.1 (x :: past) := by simp [served]
    have heq' : C.next^[n] (made r.1) = C.next^[served x.1 past] (made x.1) := by
      rw [← hr', ← h.1]
      exact heq
    obtain ⟨hi, hn'⟩ := hapart r.1 x.1 n _ (hn.trans_le (hle _)) hx heq'
    rw [hi, hn'] at hn
    exact lt_irrefl _ hn

end Streams

end Forking
