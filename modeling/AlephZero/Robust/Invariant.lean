import AlephZero.Robust.Basic
import Mathlib.Data.List.Basic
import Mathlib.Tactic.SplitIfs

/-!
# The invariant of the robust list

## What is proved

* `Interferes`, `Leaves` — what the others may do between the actions of a thread, and what an
  action of a thread leaves alone, so that it does no more to others.
* `At` — the state in the middle of a call: the list has what the thread has, but for a mutex
  that is pending.
* `triple_robustOpStart`, `triple_robustOpAdd`, `triple_robustOpDel`, `triple_robustOpEnd` —
  what the four functions do to the list.
* `triple_cas`, `triple_lockPi`, `triple_unlockPi` — what happens to the words.
-/

namespace AlephZero

open Code LinkedList

namespace Robust

variable {ι δ : Type}

/-- The word of the mutex has the id of the thread. -/
def Own (tid : Tid) (s : State ι δ) (i : ι) : Prop := ftxTid (s.ftx i) = tid.val

/-- Following `next` from the head visits no mutex twice and returns; what it visits the thread
has, and what the thread has is pending or visited. -/
def Coverage (tid : Tid) (s : State ι δ) : Prop :=
  ∃ L, Walk s.next .head L ∧ L.Nodup ∧ (∀ i ∈ L, Own tid s i) ∧
    ∀ i, Own tid s i → s.loc.pending = .node i ∨ i ∈ L

/-- It visits exactly the mutexes that the thread has, and the links are inverse to each other. -/
def Exact (tid : Tid) (s : State ι δ) : Prop :=
  ∃ L, Walk s.next .head L ∧ L.Nodup ∧ (∀ i, i ∈ L ↔ Own tid s i) ∧ Inverse s.next s.prev .head L

/-- The head is not set up, and the thread has no mutex. -/
def Unlisted (tid : Tid) (s : State ι δ) : Prop := s.next .head = .null ∧ ∀ i, ¬ Own tid s i

/-- A thread that has not locked anything. -/
structure Fresh (tid : Tid) (s : State ι δ) : Prop where
  unlisted : Unlisted tid s
  initFlag : s.loc.initFlag = false
  pending : s.loc.pending = .null
  isOwner : ∀ d, s.loc.isOwner d = false

/-- What the others do: they leave alone what the thread has for itself, and the mutexes whose
words have its id. -/
structure Interferes (tid : Tid) (s t : State ι δ) : Prop where
  own : ∀ i, Own tid t i ↔ Own tid s i
  head : t.next .head = s.next .head
  next : ∀ i, Own tid s i → t.next (.node i) = s.next (.node i)
  prev : ∀ i, Own tid s i → t.prev (.node i) = s.prev (.node i)
  loc : t.loc = s.loc

/-- What an action of the thread leaves alone: the mutexes that another thread has. -/
def Leaves (tid : Tid) (s t : State ι δ) : Prop := ∀ i, ftxTid (s.ftx i) ≠ 0 → ¬ Own tid s i →
  ftxTid (t.ftx i) = ftxTid (s.ftx i) ∧ t.next (.node i) = s.next (.node i) ∧ t.prev (.node i) = s.prev (.node i)

variable {tid : Tid} {s t u x : State ι δ} {m i : ι} {L : List ι}

theorem Interferes.refl (s : State ι δ) : Interferes tid s s :=
  ⟨fun _ => Iff.rfl, rfl, fun _ _ => rfl, fun _ _ => rfl, rfl⟩

theorem Interferes.trans (h : Interferes tid s t) (h' : Interferes tid t u) : Interferes tid s u where
  own i := (h'.own i).trans (h.own i)
  head := h'.head.trans h.head
  next i hi := (h'.next i ((h.own i).mpr hi)).trans (h.next i hi)
  prev i hi := (h'.prev i ((h.own i).mpr hi)).trans (h.prev i hi)
  loc := h'.loc.trans h.loc

theorem Interferes.walk (h : Interferes tid s t) (hw : Walk s.next .head L) (hL : ∀ i ∈ L, Own tid s i) :
    Walk t.next .head L := hw.congr h.head fun i hi => h.next i (hL i hi)

theorem Interferes.back (h : Interferes tid s t) (hb : Back s.prev .head L) (hL : ∀ i ∈ L, Own tid s i) :
    Back t.prev .head L := hb.congr fun i hi => h.prev i (hL i hi)

theorem Leaves.refl (s : State ι δ) : Leaves tid s s := fun _ _ _ => ⟨rfl, rfl, rfl⟩

/-! ### The state in the middle of a call -/

/-- The thread has the mutexes `W` and the flags `o`, and `pending` is set. -/
structure Held (tid : Tid) (flag : Bool) (o : δ → Bool) (W : ι → Prop) (pending : Link ι) (s : State ι δ) : Prop where
  initFlag : s.loc.initFlag = flag
  isOwner : s.loc.isOwner = o
  own : ∀ i, Own tid s i ↔ W i
  pending : s.loc.pending = pending

/-- The list has what the thread has, but for the mutex `out`. -/
structure At (tid : Tid) (flag : Bool) (o : δ → Bool) (W : ι → Prop) (pending : Link ι) (out : Option ι)
    (s : State ι δ) : Prop extends Held tid flag o W pending s where
  list : ∃ L, Ring s.next s.prev L ∧ ∀ i, i ∈ L ↔ W i ∧ out ≠ some i

/-- Between two calls. -/
def Rest (tid : Tid) (o : δ → Bool) (W : ι → Prop) (s : State ι δ) : Prop :=
  (Fresh tid s ∧ s.loc.isOwner = o ∧ ∀ i, ¬ W i) ∨ At tid true o W .null none s

variable {flag : Bool} {o : δ → Bool} {W : ι → Prop} {P : Link ι} {out : Option ι}

theorem Held.rely (h : Held tid flag o W P s) (hs : Interferes tid s t) : Held tid flag o W P t where
  initFlag := by rw [hs.loc, h.initFlag]
  isOwner := by rw [hs.loc, h.isOwner]
  own i := (hs.own i).trans (h.own i)
  pending := by rw [hs.loc, h.pending]

theorem At.rely (h : At tid flag o W P out s) (hs : Interferes tid s t) : At tid flag o W P out t where
  toHeld := h.toHeld.rely hs
  list := by
    obtain ⟨L, hl, hL⟩ := h.list
    have hown : ∀ i ∈ L, Own tid s i := fun i hi => (h.own i).mpr ((hL i).mp hi).1
    exact ⟨L, ⟨hs.walk hl.walk hown, hs.back hl.back hown, hl.nodup⟩, hL⟩

theorem Fresh.rely (h : Fresh tid s) (hs : Interferes tid s t) : Fresh tid t where
  unlisted := ⟨hs.head.trans h.unlisted.1, fun i hi => h.unlisted.2 i ((hs.own i).mp hi)⟩
  initFlag := by rw [hs.loc, h.initFlag]
  pending := by rw [hs.loc, h.pending]
  isOwner d := by rw [hs.loc, h.isOwner]

theorem Rest.rely (h : Rest tid o W s) (hs : Interferes tid s t) : Rest tid o W t := by
  rcases h with ⟨h, ho, hW⟩ | h
  · exact .inl ⟨h.rely hs, by rw [hs.loc, ho], hW⟩
  · exact .inr (h.rely hs)

theorem Rest.isOwner (h : Rest tid o W s) : s.loc.isOwner = o := by
  rcases h with ⟨-, h, -⟩ | h
  · exact h
  · exact h.isOwner

theorem Rest.own (h : Rest tid o W s) : Own tid s i ↔ W i := by
  rcases h with ⟨h, -, hW⟩ | h
  · exact iff_of_false (h.unlisted.2 i) (hW i)
  · exact h.own i

/-- What holds at any instant. -/
def Covered (tid : Tid) (s : State ι δ) : Prop := Unlisted tid s ∨ Coverage tid s

theorem Covered.rely (h : Covered tid s) (hs : Interferes tid s t) : Covered tid t := by
  rcases h with ⟨hhead, hown⟩ | ⟨L, hw, hnd, hL, hown⟩
  · exact .inl ⟨hs.head.trans hhead, fun i hi => hown i ((hs.own i).mp hi)⟩
  · refine .inr ⟨L, hs.walk hw hL, hnd, fun i hi => (hs.own i).mpr (hL i hi), fun i hi => ?_⟩
    rw [hs.loc]
    exact hown i ((hs.own i).mp hi)

/-- The list may have less than the thread, if that is pending. -/
theorem Held.toCovered {L : List ι} (h : Held tid flag o W P s) (hw : Walk s.next .head L) (hnd : L.Nodup)
    (hL : ∀ i, i ∈ L ↔ W i ∧ out ≠ some i) (hout : ∀ i, out = some i → P = .node i) : Covered tid s := by
  refine .inr ⟨L, hw, hnd, fun i hi => (h.own i).mpr ((hL i).mp hi).1, fun i hi => ?_⟩
  by_cases ho : out = some i
  · left
    rw [h.pending, hout i ho]
  · exact .inr ((hL i).mpr ⟨(h.own i).mp hi, ho⟩)

theorem At.toCovered (h : At tid flag o W P out s) (hout : ∀ i, out = some i → P = .node i) : Covered tid s := by
  obtain ⟨L, hl, hL⟩ := h.list
  exact h.toHeld.toCovered hl.walk hl.nodup hL hout

theorem At.covered_out (h : At tid flag o W (.node m) (some m) s) : Covered tid s :=
  h.toCovered fun i hi => by rw [Option.some.inj hi]

/-- What a call relies on, what it guarantees, and what holds at any instant. -/
def terms (ι δ : Type) (tid : Tid) : Terms (State ι δ) where
  rely := Interferes tid
  refl := .refl
  trans := .trans
  guar := Leaves tid
  guar_refl := .refl
  inv := Covered tid
  inv_rely := .rely

/-! ### Single actions -/

section Actions

variable {A B : State ι δ → Prop}

/-- An action that the thread does not see itself. -/
theorem triple_quiet {α : Type} {f : State ι δ → α → State ι δ → Prop} {C : α → Prop}
    (h : ∀ s a t, f s a t → Interferes tid s t ∧ Leaves tid s t ∧ C a) :
    Triple (terms ι δ tid) A (act f) fun a x => C a ∧ A x := by
  refine triple_act fun x s a t hA hinv hx hf => ?_
  obtain ⟨hst, hleaves, hC⟩ := h s a t hf
  exact ⟨hleaves, x, ⟨hC, hA⟩, hinv, hx.trans hst⟩

/-- What the thread has for itself. -/
theorem triple_loc {u : Local ι δ → Local ι δ}
    (h : ∀ x, A x → Covered tid x → B { x with loc := u x.loc } ∧ Covered tid { x with loc := u x.loc }) :
    Triple (terms ι δ tid) A (store fun s => { s with loc := u s.loc }) fun _ => B := by
  refine triple_store fun x s hA hinv hx => ?_
  obtain ⟨hB, hcov⟩ := h x hA hinv
  refine ⟨fun _ _ _ => ⟨rfl, rfl, rfl⟩, hB, hcov, hx.own, hx.head, hx.next, hx.prev, ?_⟩
  show u s.loc = u x.loc
  rw [hx.loc]

/-- `a0_ftx_broadcast` -/
theorem triple_ftxBroadcast : Triple (terms ι δ tid) A ftxBroadcast fun _ => A := by
  refine triple_post (triple_quiet (C := fun _ => True) fun s _ t hf => ?_) fun _ _ hx => hx.2
  cases hf
  exact ⟨.refl _, .refl _, trivial⟩

/-- `a0_ftx_wait` -/
theorem triple_ftxWait : Triple (terms ι δ tid) A ftxWait fun err x => err ≠ some .eownerdead ∧ A x := by
  refine triple_quiet fun s err t hf => ?_
  obtain ⟨herr, rfl⟩ := hf
  exact ⟨.refl _, .refl _, herr⟩

variable [DecidableEq ι]

/-- `_tkn` -/
theorem triple_setTkn {v : ℕ} : Triple (terms ι δ tid) A (store fun s => s.setTkn m v) fun _ => A := by
  refine triple_post (triple_quiet (C := fun _ => True) fun s _ t hf => ?_) fun _ _ hx => hx.2
  cases hf
  exact ⟨⟨fun _ => Iff.rfl, rfl, fun _ _ => rfl, fun _ _ => rfl, rfl⟩, fun _ _ _ => ⟨rfl, rfl, rfl⟩, trivial⟩

/-- A link of the head, or of a mutex that the thread has. -/
theorem triple_setNext {a v : Link ι} (h : ∀ x, A x → Covered tid x →
      (∀ i, a = .node i → Own tid x i) ∧ B (x.setNext a v) ∧ Covered tid (x.setNext a v)) :
    Triple (terms ι δ tid) A (store fun s => s.setNext a v) fun _ => B := by
  refine triple_store fun x s hA hinv hx => ?_
  obtain ⟨ha, hB, hcov⟩ := h x hA hinv
  have hne : ∀ {b}, s.next b = x.next b → Function.update s.next a v b = Function.update x.next a v b := by
    intro b hb
    rw [Function.update_apply, Function.update_apply, hb]
  refine ⟨fun i _ hi => ⟨rfl, Function.update_of_ne (fun h => ?_) .., rfl⟩, hB, hcov, hx.own, hne hx.head,
    fun i hi => hne (hx.next i hi), hx.prev, hx.loc⟩
  exact hi ((hx.own i).mpr (ha i h.symm))

theorem triple_setPrev {a v : Link ι} (h : ∀ x, A x → Covered tid x →
      (∀ i, a = .node i → Own tid x i) ∧ B (x.setPrev a v) ∧ Covered tid (x.setPrev a v)) :
    Triple (terms ι δ tid) A (store fun s => s.setPrev a v) fun _ => B := by
  refine triple_store fun x s hA hinv hx => ?_
  obtain ⟨ha, hB, hcov⟩ := h x hA hinv
  have hne : ∀ {b}, s.prev b = x.prev b → Function.update s.prev a v b = Function.update x.prev a v b := by
    intro b hb
    rw [Function.update_apply, Function.update_apply, hb]
  refine ⟨fun i _ hi => ⟨rfl, rfl, Function.update_of_ne (fun h => ?_) ..⟩, hB, hcov, hx.own, hx.head, hx.next,
    fun i hi => hne (hx.prev i hi), hx.loc⟩
  exact hi ((hx.own i).mpr (ha i h.symm))

theorem leaves_setFtx {v : Ftx} (h : ftxTid (s.ftx m) = 0 ∨ Own tid s m ∨ ftxTid v = ftxTid (s.ftx m)) :
    Leaves tid s (s.setFtx m v) := by
  intro i hne hi
  refine ⟨?_, rfl, rfl⟩
  show ftxTid (Function.update s.ftx m v i) = ftxTid (s.ftx i)
  rw [Function.update_apply]
  split_ifs with him
  · subst him
    rcases h with h | h | h
    · exact absurd h hne
    · exact absurd h hi
    · exact h
  · rfl

end Actions

/-! ### The list -/

/-- The thread changes what it has for itself in the middle of a call. -/
theorem triple_at_loc {u : Local ι δ → Local ι δ} {flag' : Bool} {o' : δ → Bool} {P' : Link ι}
    (h : ∀ l : Local ι δ, l.initFlag = flag → l.isOwner = o → l.pending = P →
      (u l).initFlag = flag' ∧ (u l).isOwner = o' ∧ (u l).pending = P')
    (hout : ∀ i, out = some i → P' = .node i) :
    Triple (terms ι δ tid) (At tid flag o W P out) (store fun s => { s with loc := u s.loc }) fun _ =>
      At tid flag' o' W P' out := by
  refine triple_loc fun x hx _ => ?_
  obtain ⟨hf, ho, hp⟩ := h x.loc hx.initFlag hx.isOwner hx.pending
  have hat : At tid flag' o' W P' out { x with loc := u x.loc } := ⟨⟨hf, ho, hx.own, hp⟩, hx.list⟩
  exact ⟨hat, hat.toCovered hout⟩

/-- The thread changes what it has for itself between two calls. -/
theorem triple_rest_loc {u : Local ι δ → Local ι δ} {o' : δ → Bool}
    (h : ∀ l : Local ι δ, l.isOwner = o → (u l).initFlag = l.initFlag ∧ (u l).pending = l.pending ∧ (u l).isOwner = o')
    (ho' : (∀ d, o d = false) → ∀ d, o' d = false) :
    Triple (terms ι δ tid) (Rest tid o W) (store fun s => { s with loc := u s.loc }) fun _ => Rest tid o' W := by
  refine triple_loc fun x hx _ => ?_
  obtain ⟨hf, hp, ho⟩ := h x.loc hx.isOwner
  rcases hx with ⟨hfresh, hox, hW⟩ | hat
  · refine ⟨.inl ⟨⟨hfresh.unlisted, hf.trans hfresh.initFlag, hp.trans hfresh.pending, fun d => ?_⟩, ho, hW⟩,
      .inl hfresh.unlisted⟩
    show (u x.loc).isOwner d = false
    rw [ho]
    exact ho' (fun d => hox ▸ hfresh.isOwner d) d
  · have hat' : At tid true o' W .null none { x with loc := u x.loc } :=
      ⟨⟨hf.trans hat.initFlag, ho, hat.own, hp.trans hat.pending⟩, hat.list⟩
    exact ⟨.inr hat', hat'.toCovered nofun⟩

theorem triple_setInop [DecidableEq δ] {d : δ} {b : Bool} :
    Triple (terms ι δ tid) (Rest tid o W) (store fun s => s.setInop d b) fun _ => Rest tid o W :=
  triple_rest_loc (u := fun l => { l with inop := Function.update l.inop d b }) (fun _ ho => ⟨rfl, rfl, ho⟩) id

/-- `a0_robust_op_end` -/
theorem triple_robustOpEnd :
    Triple (terms ι δ tid) (At tid true o W (.node m) none) robustOpEnd fun _ => Rest tid o W := by
  have h : Triple (terms ι δ tid) (At tid true o W (.node m) none) robustOpEnd fun _ => At tid true o W .null none :=
    triple_at_loc (u := fun l => { l with pending := .null }) (fun _ hf ho _ => ⟨hf, ho, rfl⟩) nofun
  exact triple_conseq h (fun _ hx => hx) fun _ _ hx => .inr hx

section List

variable [DecidableEq ι]

/-- `a0_robust_init_head` -/
theorem triple_robustInitHead : Triple (terms ι δ tid)
    (fun x => Fresh tid x ∧ x.loc.isOwner = o ∧ ∀ i, ¬ W i) robustInitHead fun _ => At tid false o W .null none := by
  refine triple_bind (Q := fun _ => At tid false o W .null none) (triple_setNext fun x hx _ => ?_) fun _ => ?_
  · obtain ⟨hfresh, ho, hW⟩ := hx
    have hat : At tid false o W .null none (x.setNext .head .head) := by
      have hhead := x.setNext_self .head .head
      refine ⟨⟨hfresh.initFlag, ho, fun i => iff_of_false (hfresh.unlisted.2 i) (hW i), hfresh.pending⟩, [], ?_, ?_⟩
      · exact ⟨hhead, trivial, List.nodup_nil⟩
      · exact fun i => iff_of_false List.not_mem_nil fun h => hW i h.1
    exact ⟨nofun, hat, hat.toCovered nofun⟩
  refine triple_bind (triple_at_loc (u := fun l => { l with futexOffset := 16 }) (fun _ hf ho hp => ⟨hf, ho, hp⟩) nofun)
    fun _ => ?_
  refine triple_bind (triple_at_loc (u := fun l => { l with pending := .null }) (fun _ hf ho _ => ⟨hf, ho, rfl⟩) nofun)
    fun _ => ?_
  exact triple_at_loc (u := fun l => { l with registered := true }) (fun _ hf ho hp => ⟨hf, ho, hp⟩) nofun

/-- `a0_robust_init_thread` -/
theorem triple_robustInitThread :
    Triple (terms ι δ tid) (Rest tid o W) robustInitThread fun _ => At tid true o W .null none := by
  refine triple_bind (triple_load fun x s _ hx => by rw [hx.loc]) fun flag =>
    triple_ite (fun hflag => ?_) fun hflag => ?_
  · refine triple_pure fun x hx => ?_
    obtain ⟨⟨hfresh, -⟩ | hat, hx⟩ := hx
    · rw [hfresh.initFlag, hflag] at hx
      cases hx
    · exact hat
  · refine triple_bind (triple_pre (triple_robustInitHead (o := o) (W := W)) fun x hx => ?_) fun _ => ?_
    · obtain ⟨hfresh | hat, hx⟩ := hx
      · exact hfresh
      · exact absurd (hx.trans hat.initFlag) hflag
    · exact triple_at_loc (u := fun l => { l with initFlag := true }) (fun _ _ ho hp => ⟨rfl, ho, hp⟩) nofun

/-- `a0_robust_op_start` -/
theorem triple_robustOpStart :
    Triple (terms ι δ tid) (Rest tid o W) (robustOpStart m) fun _ => At tid true o W (.node m) none :=
  triple_bind triple_robustInitThread fun _ =>
    triple_at_loc (u := fun l => { l with pending := .node m }) (fun _ hf ho _ => ⟨hf, ho, rfl⟩) nofun

/-- The mutex that is not on the list may be changed. -/
theorem At.setPrev (h : At tid flag o W P (some m) s) (v : Link ι) :
    At tid flag o W P (some m) (s.setPrev (.node m) v) := by
  obtain ⟨L, hl, hL⟩ := h.list
  refine ⟨⟨h.initFlag, h.isOwner, h.own, h.pending⟩, L, ⟨hl.walk, hl.back.update (fun i hi hmi => ?_) v, hl.nodup⟩, hL⟩
  cases hmi
  exact ((hL m).mp hi).2 rfl

theorem At.setNext (h : At tid flag o W P (some m) s) (v : Link ι) :
    At tid flag o W P (some m) (s.setNext (.node m) v) := by
  obtain ⟨L, hl, hL⟩ := h.list
  refine ⟨⟨h.initFlag, h.isOwner, h.own, h.pending⟩, L,
    ⟨hl.walk.update (Link.node_ne_head m) (fun i hi hmi => ?_) v, hl.back, hl.nodup⟩, hL⟩
  cases hmi
  exact ((hL m).mp hi).2 rfl

/-- The mutex is in front, and what follows it does not point back to it yet. -/
structure Pushed (tid : Tid) (o : δ → Bool) (W : ι → Prop) (m : ι) (old : Link ι) (s : State ι δ) : Prop
    extends Held tid true o W (.node m) s where
  prev : s.prev (.node m) = .head
  next : s.next (.node m) = old
  list : ∃ L, Walk s.next .head (m :: L) ∧ Back s.prev .head L ∧ (m :: L).Nodup ∧ ∀ i, i ∈ m :: L ↔ W i

/-- `a0_robust_op_add` -/
theorem triple_robustOpAdd (hW : W m) : Triple (terms ι δ tid) (At tid true o W (.node m) (some m))
    (robustOpAdd m) fun _ => At tid true o W (.node m) none := by
  have hpend : ∀ i, some m = some i → Link.node m = .node i := fun i h => by rw [Option.some.inj h]
  refine triple_bind (triple_load fun x s _ hx => hx.head) fun old => ?_
  refine triple_bind (Q := fun _ x =>
    At tid true o W (.node m) (some m) x ∧ old = x.next .head ∧ x.prev (.node m) = .head)
    (triple_setPrev fun x hx _ => ?_) fun _ => ?_
  · obtain ⟨hat, hold⟩ := hx
    refine ⟨fun i hi => ?_, ⟨hat.setPrev _, hold, x.setPrev_self ..⟩, (hat.setPrev _).toCovered hpend⟩
    cases hi
    exact (hat.own m).mpr hW
  refine triple_bind (Q := fun _ x =>
    At tid true o W (.node m) (some m) x ∧ old = x.next .head ∧ x.prev (.node m) = .head ∧
    x.next (.node m) = old) (triple_setNext fun x hx _ => ?_) fun _ => ?_
  · obtain ⟨hat, hold, hprev⟩ := hx
    refine ⟨fun i hi => ?_, ⟨hat.setNext _, ?_, hprev, x.setNext_self ..⟩, (hat.setNext _).toCovered hpend⟩
    · cases hi
      exact (hat.own m).mpr hW
    · exact hold.trans (x.setNext_of_ne (Link.head_ne_node m) old).symm
  refine triple_bind (Q := fun _ => Pushed tid o W m old) (triple_setNext fun x hx _ => ?_) fun _ => ?_
  · obtain ⟨hat, hold, hprev, hnext⟩ := hx
    obtain ⟨L, hl, hL⟩ := hat.list
    have hm : m ∉ L := fun h => ((hL m).mp h).2 rfl
    have hnd : (m :: L).Nodup := List.nodup_cons.mpr ⟨hm, hl.nodup⟩
    have hmem : ∀ i, i ∈ m :: L ↔ W i := by
      intro i
      rw [List.mem_cons, hL i]
      constructor
      · rintro (rfl | ⟨hi, -⟩)
        · exact hW
        · exact hi
      · intro hi
        by_cases him : i = m
        · exact .inl him
        · exact .inr ⟨hi, fun h => him (Option.some.inj h).symm⟩
    have hheld : Held tid true o W (.node m) (x.setNext .head (.node m)) :=
      ⟨hat.initFlag, hat.isOwner, hat.own, hat.pending⟩
    have hwalk : Walk (x.setNext .head (.node m)).next .head (m :: L) := hl.walk.push (hnext.trans hold)
    have hmem' (i : ι) : i ∈ m :: L ↔ W i ∧ none ≠ some i := (hmem i).trans ⟨fun hi => ⟨hi, nofun⟩, And.left⟩
    refine ⟨nofun, ⟨hheld, hprev, ?_, L, hwalk, hl.back, hnd, hmem⟩, hheld.toCovered hwalk hnd hmem' nofun⟩
    exact (x.setNext_of_ne (Link.node_ne_head m) _).trans hnext
  refine triple_ite (fun hne => triple_setPrev fun x hx _ => ?_) fun heq => triple_pure fun x hx => ?_
  · obtain ⟨L, hwalk, hback, hnd, hmem⟩ := hx.list
    rw [← hx.next] at hne ⊢
    have hat : At tid true o W (.node m) none (x.setPrev (x.next (.node m)) (.node m)) := by
      refine ⟨⟨hx.initFlag, hx.isOwner, hx.own, hx.pending⟩, m :: L, ⟨hwalk, hback.push hx.prev hwalk.2 hnd hne, hnd⟩,
        ?_⟩
      exact fun i => (hmem i).trans ⟨fun hi => ⟨hi, nofun⟩, And.left⟩
    refine ⟨fun i hi => ?_, hat, hat.toCovered nofun⟩
    rcases hwalk.next_mem List.mem_cons_self with he | ⟨k, hk, he⟩
    · exact absurd he hne
    · cases hi.symm.trans he
      exact (hx.own i).mpr ((hmem i).mp hk)
  · obtain ⟨L, hwalk, hback, hnd, hmem⟩ := hx.list
    have hnext : x.next (.node m) = .head := hx.next.trans (not_not.mp heq)
    refine ⟨hx.toHeld, m :: L, ⟨hwalk, .push_nil hx.prev hwalk.2 hnext, hnd⟩, ?_⟩
    exact fun i => (hmem i).trans ⟨fun hi => ⟨hi, nofun⟩, And.left⟩

/-- The mutex is off the list, but what follows it points back to it. -/
structure Unlinked (tid : Tid) (o : δ → Bool) (W : ι → Prop) (m : ι) (before after : Link ι) (s : State ι δ) : Prop
    extends Held tid true o W (.node m) s where
  list : ∃ L next, Walk next .head L ∧ next (.node m) = after ∧ Walk s.next .head (L.erase m) ∧ Back s.prev .head L ∧
    s.prev (.node m) = before ∧ L.Nodup ∧ ∀ i, i ∈ L ↔ W i

/-- `a0_robust_op_del` -/
theorem triple_robustOpDel (hW : W m) : Triple (terms ι δ tid) (At tid true o W (.node m) none)
    (robustOpDel m) fun _ => At tid true o W (.node m) (some m) := by
  have hpend : ∀ i, some m = some i → Link.node m = .node i := fun i h => by rw [Option.some.inj h]
  have herase : ∀ L : List ι, L.Nodup → (∀ i, i ∈ L ↔ W i) → ∀ i, i ∈ L.erase m ↔ W i ∧ some m ≠ some i := by
    intro L hnd hmem i
    rw [hnd.mem_erase_iff, hmem i, and_comm, ne_eq, ne_eq, Option.some.injEq, eq_comm]
  refine triple_bind (triple_load fun x s hat hx => hx.prev m ((hat.own m).mpr hW)) fun before => ?_
  refine triple_bind (triple_load fun x s hat hx => hx.next m ((hat.1.own m).mpr hW)) fun after => ?_
  refine triple_bind (Q := fun _ => Unlinked tid o W m before after) (triple_setNext fun x hx _ => ?_) fun _ => ?_
  · obtain ⟨⟨hat, rfl⟩, rfl⟩ := hx
    obtain ⟨L, hl, hL⟩ := hat.list
    have hmem : ∀ i, i ∈ L ↔ W i := fun i => (hL i).trans ⟨And.left, fun hi => ⟨hi, nofun⟩⟩
    have hheld : Held tid true o W (.node m) (x.setNext (x.prev (.node m)) (x.next (.node m))) :=
      ⟨hat.initFlag, hat.isOwner, hat.own, hat.pending⟩
    have hwalk : Walk (x.setNext (x.prev (.node m)) (x.next (.node m))).next .head (L.erase m) :=
      hl.walk.unlink hl.back ((hmem m).mpr hW) hl.nodup fun j _ => Link.head_ne_node j
    refine ⟨fun i hi => ?_, ⟨hheld, L, x.next, hl.walk, rfl, hwalk, hl.back, rfl, hl.nodup, hmem⟩,
      hheld.toCovered hwalk (hl.nodup.erase m) (herase L hl.nodup hmem) hpend⟩
    rcases hl.back.prev_mem ((hmem m).mpr hW) with he | ⟨k, hk, he⟩
    · cases hi.symm.trans he
    · cases hi.symm.trans he
      exact (hat.own i).mpr ((hmem i).mp hk)
  refine triple_ite (fun hne => triple_setPrev fun x hx _ => ?_) fun heq => triple_pure fun x hx => ?_
  · obtain ⟨L, next, hwalk, rfl, hwalk', hback, rfl, hnd, hmem⟩ := hx.list
    have hat : At tid true o W (.node m) (some m) (x.setPrev (next (.node m)) (x.prev (.node m))) := by
      refine ⟨⟨hx.initFlag, hx.isOwner, hx.own, hx.pending⟩, L.erase m, ⟨hwalk', ?_, hnd.erase m⟩, herase L hnd hmem⟩
      exact hback.unlink hwalk ((hmem m).mpr hW) hnd hne
    refine ⟨fun i hi => ?_, hat, hat.toCovered hpend⟩
    rcases hwalk.next_mem ((hmem m).mpr hW) with he | ⟨k, hk, he⟩
    · exact absurd he hne
    · cases hi.symm.trans he
      exact (hx.own i).mpr ((hmem i).mp hk)
  · obtain ⟨L, next, hwalk, hafter, hwalk', hback, -, hnd, hmem⟩ := hx.list
    have hnext : next (.node m) = .head := hafter.trans (not_not.mp heq)
    refine ⟨hx.toHeld, L.erase m, ⟨hwalk', ?_, hnd.erase m⟩, herase L hnd hmem⟩
    exact hback.unlink_last hwalk ((hmem m).mpr hW) hnd hnext

end List

/-! ### The word -/

section Word

variable {v w : Ftx} {o' : δ → Bool}

/-- The mutexes of the thread, and one more. -/
def gain (W : ι → Prop) (m : ι) : ι → Prop := fun i => W i ∨ i = m

/-- The mutexes of the thread, but one. -/
def drop (W : ι → Prop) (m : ι) : ι → Prop := fun i => W i ∧ i ≠ m

/-- In the call of a lock: has it been successful? -/
def Tried (tid : Tid) (o o' : δ → Bool) (W : ι → Prop) (m : ι) : Bool → State ι δ → Prop
  | true => fun s => ¬ W m ∧ At tid true o' (gain W m) (.node m) (some m) s
  | false => At tid true o W (.node m) none

/-- In the call of an unlock: has the word been cleared? -/
def Cleared (tid : Tid) (o : δ → Bool) (W : ι → Prop) (m : ι) : Bool → State ι δ → Prop
  | true => At tid true o (drop W m) (.node m) none
  | false => At tid true o W (.node m) (some m)

theorem triple_lockedResult : Triple (terms ι δ tid) (Tried tid o o' W m true) (lockedResult m) fun err =>
    Tried tid o o' W m (mtxLockSuccessful err) := by
  refine triple_bind triple_load_any fun v => triple_ite (fun _ => ?_) fun _ => ?_
  · exact triple_pure fun x hx => hx
  · exact triple_pure fun x hx => hx

variable [DecidableEq ι]

theorem own_setFtx : Own tid (s.setFtx m v) i ↔ if i = m then ftxTid v = tid.val else Own tid s i := by
  split_ifs with him
  · subst him
    rw [Own, State.setFtx_self]
  · rw [Own, State.setFtx_of_ne _ him, Own]

/-- The word gets the id of the thread. -/
theorem At.acquire (h : At tid flag o W P none s) (hfree : ftxTid (s.ftx m) = 0) (hv : ftxTid v = tid.val) :
    ¬ W m ∧ At tid flag o (gain W m) P (some m) (s.setFtx m v) := by
  have hW : ¬ W m := by
    intro hm
    have hown : ftxTid (s.ftx m) = tid.val := (h.own m).mpr hm
    exact tid.ne_zero (hown.symm.trans hfree)
  refine ⟨hW, ⟨h.initFlag, h.isOwner, fun i => ?_, h.pending⟩, ?_⟩
  · rw [own_setFtx, gain]
    split_ifs with him
    · exact iff_of_true hv (.inr him)
    · rw [h.own i]
      exact ⟨.inl, fun h => h.resolve_right him⟩
  · obtain ⟨L, hl, hL⟩ := h.list
    refine ⟨L, ⟨hl.walk, hl.back, hl.nodup⟩, fun i => (hL i).trans ⟨fun hi => ⟨.inl hi.1, fun him => ?_⟩, fun hi => ?_⟩⟩
    · cases him
      exact hW hi.1
    · exact ⟨hi.1.resolve_right fun him => hi.2 (congrArg some him.symm), nofun⟩

/-- The word has the same id as before. -/
theorem At.setFtx (h : At tid flag o W P out s) (hv : ftxTid v = ftxTid (s.ftx m)) :
    At tid flag o W P out (s.setFtx m v) := by
  refine ⟨⟨h.initFlag, h.isOwner, fun i => ?_, h.pending⟩, h.list⟩
  rw [own_setFtx]
  split_ifs with him
  · subst him
    rw [hv]
    exact h.own i
  · exact h.own i

/-- The word loses the id of the thread. -/
theorem At.release (h : At tid flag o W P (some m) s) (hv : ftxTid v = 0) :
    At tid flag o (drop W m) P none (s.setFtx m v) := by
  refine ⟨⟨h.initFlag, h.isOwner, fun i => ?_, h.pending⟩, ?_⟩
  · rw [own_setFtx, drop]
    split_ifs with him
    · exact iff_of_false (fun h => tid.ne_zero (h.symm.trans hv)) fun h => h.2 him
    · rw [h.own i]
      exact ⟨fun hi => ⟨hi, him⟩, And.left⟩
  · obtain ⟨L, hl, hL⟩ := h.list
    refine ⟨L, ⟨hl.walk, hl.back, hl.nodup⟩, fun i => (hL i).trans
      ⟨fun hi => ⟨⟨hi.1, ?_⟩, nofun⟩, fun hi => ⟨hi.1.1, ?_⟩⟩⟩
    · rintro rfl
      exact hi.2 rfl
    · exact fun him => hi.1.2 (Option.some.inj him).symm

/-- `a0_cas` -/
theorem triple_cas {A : State ι δ → Prop} {Q : Bool → State ι δ → Prop} (hA : ∀ x s, A x → Interferes tid x s → A s)
    (hhit : ∀ s, A s → s.ftx m = v → (ftxTid (s.ftx m) = 0 ∨ Own tid s m ∨ ftxTid w = ftxTid (s.ftx m)) ∧
      Q true (s.setFtx m w) ∧ Covered tid (s.setFtx m w))
    (hmiss : ∀ s, A s → Q false s) : Triple (terms ι δ tid) A (cas m v w) Q := by
  refine triple_modify_of_rely hA fun s hs hinv => ?_
  split_ifs with hv
  · obtain ⟨hleaves, hQ, hcov⟩ := hhit s hs hv
    exact ⟨leaves_setFtx hleaves, hQ, hcov⟩
  · exact ⟨.refl _, hmiss _ hs, hinv⟩

theorem triple_cas_acquire (hv : ftxTid v = 0) (hw : ftxTid w = tid.val) :
    Triple (terms ι δ tid) (At tid true o W (.node m) none) (cas m v w) (Tried tid o o W m) := by
  refine triple_cas (fun _ _ hx => hx.rely) (fun s hs hftx => ?_) fun s hs => hs
  rw [← hftx] at hv
  have hat := hs.acquire hv hw
  exact ⟨.inl hv, hat, hat.2.covered_out⟩

theorem triple_cas_same (hw : ftxTid w = ftxTid v) :
    Triple (terms ι δ tid) (At tid true o W P none) (cas m v w) fun _ => At tid true o W P none := by
  refine triple_cas (fun _ _ hx => hx.rely) (fun s hs hftx => ?_) fun s hs => hs
  rw [← hftx] at hw
  have hat := hs.setFtx hw
  exact ⟨.inr (.inr hw), hat, hat.toCovered nofun⟩

theorem triple_cas_release (hv : ftxTid v = tid.val) (hw : ftxTid w = 0) :
    Triple (terms ι δ tid) (At tid true o W (.node m) (some m)) (cas m v w) (Cleared tid o W m) := by
  refine triple_cas (fun _ _ hx => hx.rely) (fun s hs hftx => ?_) fun s hs => hs
  have hat := hs.release hw
  rw [← hftx] at hv
  exact ⟨.inr (.inl hv), hat, hat.toCovered nofun⟩

/-- `a0_cas_val` -/
theorem triple_casVal (hw : ftxTid w = tid.val) : Triple (terms ι δ tid) (At tid true o W (.node m) none)
    (casVal m 0 w) fun old => Tried tid o o W m (old = 0) := by
  refine triple_modify_of_rely (fun _ _ hx => hx.rely) fun s hs hinv => ?_
  split_ifs with hv
  · have hfree : ftxTid (s.ftx m) = 0 := by rw [hv, ftxTid_zero]
    have hat := hs.acquire hfree hw
    refine ⟨leaves_setFtx (.inl hfree), ?_, hat.2.covered_out⟩
    rw [decide_eq_true hv]
    exact hat
  · refine ⟨.refl _, ?_, hinv⟩
    rw [decide_eq_false hv]
    exact hs

theorem triple_lockPi : Triple (terms ι δ tid) (At tid true o W (.node m) none) (lockPi tid m) fun err x =>
    err ≠ some .eownerdead ∧ Tried tid o o W m err.isNone x := by
  refine triple_act_of_rely (fun _ _ hx => hx.rely) fun s err t hs hinv hf => ?_
  rcases hf with ⟨e, he, rfl, rfl⟩ | ⟨rfl, hfree, w, hw, rfl⟩
  · exact ⟨.refl _, ⟨fun h => he (Option.some.inj h), hs⟩, hinv⟩
  · have hat := hs.acquire hfree hw
    exact ⟨leaves_setFtx (.inl hfree), ⟨nofun, hat⟩, hat.2.covered_out⟩

theorem triple_unlockPi (hW : W m) : Triple (terms ι δ tid) (At tid true o W (.node m) (some m)) (unlockPi tid m)
    fun _ => At tid true o (drop W m) (.node m) none := by
  refine triple_act_of_rely (fun _ _ hx => hx.rely) fun s err t hs hinv hf => ?_
  have hown : Own tid s m := (hs.own m).mpr hW
  rcases hf with ⟨-, w, hw, rfl⟩ | ⟨hne, -⟩
  · have hat := hs.release hw
    exact ⟨leaves_setFtx (.inr (.inl hown)), hat, hat.toCovered nofun⟩
  · exact absurd hown hne

/-- `a0_atomic_and_fetch` with a mask that keeps the id. -/
theorem triple_andFetch_keep {mask : Ftx} (hmask : ∀ v : Ftx, ftxTid (v &&& mask) = ftxTid v) :
    Triple (terms ι δ tid) (At tid true o W (.node m) (some m)) (andFetch m mask) fun _ =>
      At tid true o W (.node m) (some m) := by
  refine triple_act_of_rely (fun _ _ hx => hx.rely) fun s _ t hs hinv hf => ?_
  cases hf
  have hat := hs.setFtx (hmask (s.ftx m))
  exact ⟨leaves_setFtx (.inr (.inr (hmask _))), hat, hat.covered_out⟩

/-- With a mask that clears it. -/
theorem triple_andFetch_clear {mask : Ftx} (hmask : ∀ v : Ftx, ftxTid (v &&& mask) = 0) (hW : W m) :
    Triple (terms ι δ tid) (At tid true o W (.node m) (some m)) (andFetch m mask) fun _ =>
      At tid true o (drop W m) (.node m) none := by
  refine triple_act_of_rely (fun _ _ hx => hx.rely) fun s _ t hs hinv hf => ?_
  cases hf
  have hat := hs.release (hmask (s.ftx m))
  exact ⟨leaves_setFtx (.inr (.inl ((hs.own m).mpr hW))), hat, hat.toCovered nofun⟩

end Word

end Robust

end AlephZero
