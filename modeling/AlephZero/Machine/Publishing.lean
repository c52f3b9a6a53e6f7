import AlephZero.Machine.Threads
import Mathlib.Data.List.Infix

/-!
# Files that are linked when they are done

The names of a file system, the files they lead to, and a way to make a file so that nobody
sees it half done: under a name that only its author uses, which is then linked at the path
where others look for it.

## The model

Each of any number of authors has at most one draft. It makes it, changes it, tries to link
it, which seals it, and takes its name away, or leaves it behind. At the other paths, anyone
may remove a file, and anyone may make directories, which stay. The state remembers who made
a file, which files have been linked at a path, the newest first, how often one has been
removed from there, and which drafts were left behind.

## What is proved

* `Step.good`, `Step.draftGood`, `Step.draftGood_others` — the invariants: at a path that is
  not a draft's there is the file that was linked there last, all those linked are what is
  demanded of a file at that path, and a draft is its author's, or was left behind.
* `Step.grows`, `Step.keeps` — what is linked does not change, and nobody changes the draft
  of somebody else.
* `eq_of_mem_editions` — without removals all files linked at a path are the same.
* `isInvariant` — threads whose actions are such steps keep the invariants.
-/

namespace Publishing

/-- What a path leads to. -/
inductive Entry where
  | dir
  | file (n : ℕ)
  deriving DecidableEq

/-- The file that there is. -/
def Entry.files : Option Entry → List ℕ
  | some (.file n) => [n]
  | _ => []

/-- A file that its author is not done with. -/
structure Draft (P : Type) where
  name : P
  file : ℕ
  /-- Its author has tried to link it. -/
  isSealed : Bool
  deriving DecidableEq

/-- The file system, and what became of it. -/
structure Shared (ι P M : Type) where
  entries : P → Option Entry
  /-- What is known of a file. -/
  inodes : ℕ → M
  /-- How many files have been made. -/
  count : ℕ
  author : ℕ → Option ι
  /-- The files that have been linked at a path. -/
  editions : P → List ℕ
  removals : P → ℕ
  /-- The drafts that were left behind. -/
  abandoned : List (P × ℕ)

variable {ι P M : Type}

namespace Shared

variable [DecidableEq P] (s : Shared ι P M)

def mkdir (p : P) : Shared ι P M := { s with entries := Function.update s.entries p (some .dir) }

/-- A new file. -/
def create (i : ι) (p : P) (m : M) : Shared ι P M :=
  { s with
    entries := Function.update s.entries p (some (.file s.count))
    inodes := Function.update s.inodes s.count m
    count := s.count + 1
    author := Function.update s.author s.count (some i) }

def change (n : ℕ) (m : M) : Shared ι P M := { s with inodes := Function.update s.inodes n m }

def link (n : ℕ) (p : P) : Shared ι P M :=
  { s with
    entries := Function.update s.entries p (some (.file n))
    editions := Function.update s.editions p (n :: s.editions p) }

/-- The name of a draft is taken away. -/
def unlink (p : P) : Shared ι P M := { s with entries := Function.update s.entries p none }

/-- A linked file is removed. -/
def remove (p : P) : Shared ι P M :=
  { s with
    entries := Function.update s.entries p none
    removals := Function.update s.removals p (s.removals p + 1) }

def abandon (p : P) (n : ℕ) : Shared ι P M := { s with abandoned := (p, n) :: s.abandoned }

end Shared

/-- A step of the author `i`, and what its draft is before and after it. Names are those of
drafts where `isDraft` holds, and `Q` is demanded of a file that is linked. -/
inductive Step [DecidableEq P] (isDraft : P → Prop) (Q : P → M → Prop) (i : ι) (s : Shared ι P M) :
    Option (Draft P) → Shared ι P M → Option (Draft P) → Prop where
  | stay (d : Option (Draft P)) : Step isDraft Q i s d s d
  | mkdir (d : Option (Draft P)) (p : P) (hp : s.entries p = none) : Step isDraft Q i s d (s.mkdir p) d
  | create (p : P) (m : M) (hd : isDraft p) (hp : s.entries p = none) :
      Step isDraft Q i s none (s.create i p m) (some ⟨p, s.count, false⟩)
  | change (p : P) (n : ℕ) (m : M) : Step isDraft Q i s (some ⟨p, n, false⟩) (s.change n m) (some ⟨p, n, false⟩)
  /-- A link fails. -/
  | seals (p : P) (n : ℕ) : Step isDraft Q i s (some ⟨p, n, false⟩) s (some ⟨p, n, true⟩)
  | link (p q : P) (n : ℕ) (hd : ¬ isDraft q) (hq : s.entries q = none) (hQ : Q q (s.inodes n)) :
      Step isDraft Q i s (some ⟨p, n, false⟩) (s.link n q) (some ⟨p, n, true⟩)
  | unlink (p : P) (n : ℕ) : Step isDraft Q i s (some ⟨p, n, true⟩) (s.unlink p) none
  | abandon (x : Draft P) : Step isDraft Q i s (some x) (s.abandon x.name x.file) none
  | remove (d : Option (Draft P)) (p : P) (n : ℕ) (hd : ¬ isDraft p) (hp : s.entries p = some (.file n)) :
      Step isDraft Q i s d (s.remove p) d

/-! ### The invariants -/

/-- What holds of the file system. -/
structure Shared.Good [DecidableEq P] (isDraft : P → Prop) (Q : P → M → Prop) (s : Shared ι P M) : Prop where
  entries_lt : ∀ p n, s.entries p = some (.file n) → n < s.count
  author_lt : ∀ n i, s.author n = some i → n < s.count
  editions_lt : ∀ p, ∀ n ∈ s.editions p, n < s.count
  /-- A file under the name of a draft has an author. -/
  drafts : ∀ p n, isDraft p → s.entries p = some (.file n) → ∃ i, s.author n = some i
  /-- What has been linked is there, or was removed. -/
  editions : ∀ p, ¬ isDraft p → ∃ gone, s.editions p = Entry.files (s.entries p) ++ gone ∧ gone.length = s.removals p
  whole : ∀ p, ∀ n ∈ s.editions p, Q p (s.inodes n)
  abandoned : ∀ x ∈ s.abandoned, isDraft x.1 ∧ s.entries x.1 = some (.file x.2)

/-- What holds of an author and its draft. -/
structure DraftGood (isDraft : P → Prop) (i : ι) (s : Shared ι P M) (d : Option (Draft P)) : Prop where
  name : ∀ x ∈ d, isDraft x.name ∧ s.entries x.name = some (.file x.file)
  author : ∀ x ∈ d, s.author x.file = some i
  /-- A draft has not been linked as long as it may change. -/
  unlinked : ∀ x ∈ d, x.isSealed = false → ∀ p, x.file ∉ s.editions p
  kept : ∀ x ∈ d, (x.name, x.file) ∉ s.abandoned
  /-- It is the only one of its author that has not been left behind. -/
  left : ∀ p n, isDraft p → s.entries p = some (.file n) → s.author n = some i →
    (∃ x ∈ d, x.name = p ∧ x.file = n) ∨ (p, n) ∈ s.abandoned

/-- What no step takes back. -/
structure Shared.Grows (isDraft : P → Prop) (s s' : Shared ι P M) : Prop where
  editions : ∀ p, s.editions p <:+ s'.editions p
  removals : ∀ p, s.removals p ≤ s'.removals p
  inodes : ∀ p, ∀ n ∈ s.editions p, s'.inodes n = s.inodes n
  dirs : ∀ p, s.entries p = some .dir → s'.entries p = some .dir
  /-- What is not there any more was removed. -/
  gone : ∀ p, ¬ isDraft p → s.entries p ≠ none → s'.entries p = none → s.removals p < s'.removals p

theorem Entry.mem_files {e : Option Entry} {n : ℕ} : n ∈ Entry.files e ↔ e = some (.file n) := by
  fun_cases Entry.files e
  case case1 => simp [eq_comm]
  case case2 h => simpa using h n

section Steps

variable [DecidableEq P] {isDraft : P → Prop} {Q : P → M → Prop} {i j : ι} {s s' : Shared ι P M}
  {d d' e : Option (Draft P)}

/-- A file that is still there. -/
theorem file_of_update {f : P → Option Entry} {p q : P} {x : Option Entry} {n : ℕ} (hx : ∀ n, x ≠ some (.file n))
    (h : Function.update f p x q = some (.file n)) : f q = some (.file n) := by
  rcases eq_or_ne q p with rfl | hq
  · rw [Function.update_self] at h
    exact absurd h (hx n)
  · rwa [Function.update_of_ne hq] at h

theorem Shared.mem_editions_link {p q : P} {n k : ℕ} :
    k ∈ (s.link n q).editions p ↔ p = q ∧ k = n ∨ k ∈ s.editions p := by
  rcases eq_or_ne p q with rfl | hp
  · simp [Shared.link]
  · simp [Shared.link, hp]

/-- Without removals, the files that have been linked at a path are the same. -/
theorem eq_of_mem_editions (h : s.Good isDraft Q) {p : P} (hp : ¬ isDraft p) (hrem : s.removals p = 0) {n m : ℕ}
    (hn : n ∈ s.editions p) (hm : m ∈ s.editions p) : n = m ∧ s.entries p = some (.file n) := by
  obtain ⟨gone, heq, hgone⟩ := h.editions p hp
  obtain rfl : gone = [] := List.length_eq_zero_iff.mp (hgone.trans hrem)
  rw [heq, List.append_nil] at hn hm
  rw [Entry.mem_files] at hn hm
  exact ⟨by simpa [hn] using hm, hn⟩

/-- There are as many editions as removals, and one more while there is a file. -/
theorem length_editions (h : s.Good isDraft Q) {p : P} (hp : ¬ isDraft p) :
    (s.editions p).length = s.removals p + (Entry.files (s.entries p)).length := by
  obtain ⟨gone, heq, hgone⟩ := h.editions p hp
  rw [heq, List.length_append, hgone, Nat.add_comm]

/-- What is linked is an edition. -/
theorem mem_editions (h : s.Good isDraft Q) {p : P} {n : ℕ} (hp : ¬ isDraft p) (hn : s.entries p = some (.file n)) :
    n ∈ s.editions p := by
  obtain ⟨gone, heq, -⟩ := h.editions p hp
  rw [heq, hn]
  exact List.mem_cons_self

/-- What is linked does not change. -/
theorem Step.grows (h : Step isDraft Q i s d s' d') (hs : s.Good isDraft Q) (hd : DraftGood isDraft i s d) :
    s.Grows isDraft s' := by
  have hdirs : ∀ (f : P → Option Entry) p q e, f q ≠ some .dir → f p = some .dir →
      Function.update f q e p = some .dir := by
    intro f p q e hq hp
    rw [Function.update_of_ne (by rintro rfl; exact hq hp), hp]
  have hgone : ∀ (f : P → Option Entry) p q e, e ≠ none → f p ≠ none → Function.update f q e p ≠ none := by
    intro f p q e he hp
    rcases eq_or_ne p q with rfl | hq
    · rwa [Function.update_self]
    · rwa [Function.update_of_ne hq]
  cases h with
  | stay | seals | abandon =>
    exact ⟨fun _ => List.suffix_rfl, fun _ => le_rfl, fun _ _ _ => rfl, fun _ hp => hp, fun _ _ h h' => absurd h' h⟩
  | mkdir _ p hp =>
    refine ⟨fun _ => List.suffix_rfl, fun _ => le_rfl, fun _ _ _ => rfl, fun q hq => ?_, fun q _ hq hq' => ?_⟩
    · exact hdirs _ _ _ _ (by simp [hp]) hq
    · exact absurd hq' (hgone _ _ _ _ (by simp) hq)
  | create p m hname hp =>
    refine ⟨fun _ => List.suffix_rfl, fun _ => le_rfl, fun q n hn => ?_, fun q hq => ?_, fun q _ hq hq' => ?_⟩
    · exact Function.update_of_ne (Nat.ne_of_lt (hs.editions_lt q n hn)) _ _
    · exact hdirs _ _ _ _ (by simp [hp]) hq
    · exact absurd hq' (hgone _ _ _ _ (by simp) hq)
  | change p n m =>
    refine ⟨fun _ => List.suffix_rfl, fun _ => le_rfl, fun q k hk => ?_, fun _ hp => hp, fun _ _ h h' => absurd h' h⟩
    have hne : k ≠ n := by
      rintro rfl
      exact hd.unlinked _ rfl rfl q hk
    exact Function.update_of_ne hne _ _
  | link p q n hname hq hQ =>
    refine ⟨fun r => ?_, fun _ => le_rfl, fun _ _ _ => rfl, fun r hr => ?_, fun r _ hr hr' => ?_⟩
    · rcases eq_or_ne r q with rfl | hr
      · simp [Shared.link, List.suffix_cons]
      · simp [Shared.link, Function.update_of_ne hr]
    · exact hdirs _ _ _ _ (by simp [hq]) hr
    · exact absurd hr' (hgone _ _ _ _ (by simp) hr)
  | unlink p n =>
    obtain ⟨hname, hp⟩ := hd.name _ rfl
    refine ⟨fun _ => List.suffix_rfl, fun _ => le_rfl, fun _ _ _ => rfl, fun q hq => ?_, fun q hnot hq hq' => ?_⟩
    · exact hdirs _ _ _ _ (by simp [hp]) hq
    · have hqp : q ≠ p := by
        rintro rfl
        exact hnot hname
      exact absurd ((Function.update_of_ne hqp _ _).symm.trans hq') hq
  | remove _ p n hname hp =>
    have hle : ∀ q, s.removals q ≤ (s.remove p).removals q := by
      intro q
      rcases eq_or_ne q p with rfl | hq
      · simp [Shared.remove]
      · simp [Shared.remove, Function.update_of_ne hq]
    refine ⟨fun _ => List.suffix_rfl, hle, fun _ _ _ => rfl, fun q hq => ?_, fun q _ hq hq' => ?_⟩
    · exact hdirs _ _ _ _ (by simp [hp]) hq
    · rcases eq_or_ne q p with rfl | hqp
      · simp [Shared.remove]
      · exact absurd ((Function.update_of_ne hqp _ _).symm.trans hq') hq

/-- The draft of an author is left alone by the others. -/
theorem Step.keeps (h : Step isDraft Q i s d s' d') (hs : s.Good isDraft Q) (hd : DraftGood isDraft i s d)
    (he : DraftGood isDraft j s e) (hij : i ≠ j) (x : Draft P) (hx : x ∈ e) :
    s'.entries x.name = s.entries x.name ∧ s'.inodes x.file = s.inodes x.file ∧
      s'.author x.file = s.author x.file ∧ ((∀ p, x.file ∉ s.editions p) → ∀ p, x.file ∉ s'.editions p) ∧
      ((x.name, x.file) ∉ s.abandoned → (x.name, x.file) ∉ s'.abandoned) := by
  obtain ⟨hname, hentry⟩ := he.name x hx
  have hauthor := he.author x hx
  -- a draft of the acting author is another one
  have hfile : ∀ y ∈ d, x.file ≠ y.file := by
    intro y hy heq
    have h := hd.author y hy
    rw [← heq, hauthor] at h
    exact hij (Option.some.inj h).symm
  have hnames : ∀ y ∈ d, x.name ≠ y.name := by
    intro y hy heq
    have h := (hd.name y hy).2
    rw [← heq, hentry] at h
    exact hfile y hy (by simpa using h)
  cases h with
  | stay | seals => exact ⟨rfl, rfl, rfl, id, id⟩
  | mkdir _ p hp =>
    have hne : x.name ≠ p := by
      rintro rfl
      simp [hentry] at hp
    exact ⟨Function.update_of_ne hne _ _, rfl, rfl, id, id⟩
  | create p m hdraft hp =>
    have hne : x.name ≠ p := by
      rintro rfl
      simp [hentry] at hp
    have hlt : x.file ≠ s.count := Nat.ne_of_lt (hs.entries_lt _ _ hentry)
    exact ⟨Function.update_of_ne hne _ _, Function.update_of_ne hlt _ _, Function.update_of_ne hlt _ _, id, id⟩
  | change p n m => exact ⟨rfl, Function.update_of_ne (hfile _ rfl) _ _, rfl, id, id⟩
  | link p q n hdraft hq hQ =>
    have hne : x.name ≠ q := by
      rintro rfl
      exact hdraft hname
    refine ⟨Function.update_of_ne hne _ _, rfl, rfl, fun hnot r hr => ?_, id⟩
    rcases Shared.mem_editions_link.mp hr with ⟨-, heq⟩ | hr
    · exact hfile _ rfl heq
    · exact hnot r hr
  | unlink p n => exact ⟨Function.update_of_ne (hnames _ rfl) _ _, rfl, rfl, id, id⟩
  | abandon y =>
    refine ⟨rfl, rfl, rfl, id, fun hnot => ?_⟩
    simpa [Shared.abandon, hnames y rfl] using hnot
  | remove _ p n hdraft hp =>
    have hne : x.name ≠ p := by
      rintro rfl
      exact hdraft hname
    exact ⟨Function.update_of_ne hne _ _, rfl, rfl, id, id⟩

/-- What holds of the file system is kept. -/
theorem Step.good (h : Step isDraft Q i s d s' d') (hs : s.Good isDraft Q) (hd : DraftGood isDraft i s d) :
    s'.Good isDraft Q := by
  have hgrows := h.grows hs hd
  have hwhole : (∀ p, s'.editions p = s.editions p) → ∀ p, ∀ n ∈ s'.editions p, Q p (s'.inodes n) := by
    intro heq p n hn
    rw [heq] at hn
    rw [hgrows.inodes p n hn]
    exact hs.whole p n hn
  cases h with
  | stay | seals => exact hs
  | mkdir _ p hp =>
    refine ⟨fun q n hq => ?_, hs.author_lt, hs.editions_lt, fun q n hname hq => ?_, fun q hname => ?_,
      hwhole fun _ => rfl, fun x hx => ?_⟩
    · exact hs.entries_lt q n (file_of_update (by simp) hq)
    · exact hs.drafts q n hname (file_of_update (by simp) hq)
    · have hedit := hs.editions q hname
      rcases eq_or_ne q p with rfl | hqp
      · simpa [Shared.mkdir, Entry.files, hp] using hedit
      · simpa [Shared.mkdir, Function.update_of_ne hqp] using hedit
    · obtain ⟨hname, hx⟩ := hs.abandoned x hx
      refine ⟨hname, ?_⟩
      rw [← hx]
      exact Function.update_of_ne (by rintro heq; simp [heq, hp] at hx) _ _
  | create p m hdraft hp =>
    have hentry : ∀ q n, (s.create i p m).entries q = some (.file n) →
        q = p ∧ n = s.count ∨ s.entries q = some (.file n) ∧ n < s.count := by
      intro q n hq
      simp only [Shared.create, Function.update_apply] at hq
      split_ifs at hq with hqp
      · exact .inl ⟨hqp, by simpa [eq_comm] using hq⟩
      · exact .inr ⟨hq, hs.entries_lt q n hq⟩
    refine ⟨fun q n hq => ?_, fun n j hn => ?_, fun q n hn => (hs.editions_lt q n hn).trans (Nat.lt_succ_self _),
      fun q n hname hq => ?_, fun q hname => ?_, hwhole fun _ => rfl, fun x hx => ?_⟩
    · rcases hentry q n hq with ⟨-, rfl⟩ | ⟨-, hlt⟩
      · exact Nat.lt_succ_self _
      · exact hlt.trans (Nat.lt_succ_self _)
    · simp only [Shared.create, Function.update_apply] at hn
      split_ifs at hn with hnc
      · exact hnc ▸ Nat.lt_succ_self _
      · exact (hs.author_lt n j hn).trans (Nat.lt_succ_self _)
    · rcases hentry q n hq with ⟨-, rfl⟩ | ⟨hq, hlt⟩
      · exact ⟨i, Function.update_self _ _ _⟩
      · obtain ⟨j, hj⟩ := hs.drafts q n hname hq
        exact ⟨j, (Function.update_of_ne (Nat.ne_of_lt hlt) _ _).trans hj⟩
    · have hqp : q ≠ p := by
        rintro rfl
        exact hname hdraft
      simpa [Shared.create, Function.update_of_ne hqp] using hs.editions q hname
    · obtain ⟨hname, hx⟩ := hs.abandoned x hx
      refine ⟨hname, ?_⟩
      rw [← hx]
      exact Function.update_of_ne (by rintro heq; simp [heq, hp] at hx) _ _
  | change p n m =>
    exact ⟨hs.entries_lt, hs.author_lt, hs.editions_lt, hs.drafts, hs.editions, hwhole fun _ => rfl, hs.abandoned⟩
  | link p q n hdraft hq hQ =>
    have hn : n < s.count := hs.entries_lt _ _ (hd.name _ rfl).2
    refine ⟨fun r k hr => ?_, hs.author_lt, fun r k hk => ?_, fun r k hname hr => ?_, fun r hname => ?_,
      fun r k hk => ?_, fun x hx => ?_⟩
    · simp only [Shared.link, Function.update_apply] at hr
      split_ifs at hr with hrq
      · obtain rfl : n = k := by simpa using hr
        exact hn
      · exact hs.entries_lt r k hr
    · rcases Shared.mem_editions_link.mp hk with ⟨-, rfl⟩ | hk
      · exact hn
      · exact hs.editions_lt r k hk
    · have hrq : r ≠ q := by
        rintro rfl
        exact hdraft hname
      exact hs.drafts r k hname ((Function.update_of_ne hrq _ _).symm.trans hr)
    · have hedit := hs.editions r hname
      rcases eq_or_ne r q with rfl | hrq
      · simpa [Shared.link, Entry.files, hq] using hedit
      · simpa [Shared.link, Function.update_of_ne hrq] using hedit
    · rcases Shared.mem_editions_link.mp hk with ⟨rfl, rfl⟩ | hk
      · exact hQ
      · exact hs.whole r k hk
    · obtain ⟨hname, hx⟩ := hs.abandoned x hx
      refine ⟨hname, ?_⟩
      rw [← hx]
      exact Function.update_of_ne (by rintro heq; exact hdraft (heq ▸ hname)) _ _
  | unlink p n =>
    obtain ⟨hdraft, hp⟩ := hd.name _ rfl
    refine ⟨fun q k hq => ?_, hs.author_lt, hs.editions_lt, fun q k hname hq => ?_, fun q hname => ?_,
      hwhole fun _ => rfl, fun x hx => ?_⟩
    · exact hs.entries_lt q k (file_of_update (by simp) hq)
    · exact hs.drafts q k hname (file_of_update (by simp) hq)
    · have hqp : q ≠ p := by
        rintro rfl
        exact hname hdraft
      simpa [Shared.unlink, Function.update_of_ne hqp] using hs.editions q hname
    · obtain ⟨hname, hx'⟩ := hs.abandoned x hx
      refine ⟨hname, ?_⟩
      rw [← hx']
      refine Function.update_of_ne (fun heq => hd.kept _ rfl ?_) _ _
      have hfile : x.2 = n := by
        rw [heq] at hx'
        simpa [hp, eq_comm] using hx'
      rwa [← heq, ← hfile]
  | abandon x =>
    refine ⟨hs.entries_lt, hs.author_lt, hs.editions_lt, hs.drafts, hs.editions, hwhole fun _ => rfl, fun y hy => ?_⟩
    rcases List.mem_cons.mp hy with rfl | hy
    · exact hd.name x rfl
    · exact hs.abandoned y hy
  | remove _ p n hdraft hp =>
    refine ⟨fun q k hq => ?_, hs.author_lt, hs.editions_lt, fun q k hname hq => ?_, fun q hname => ?_,
      hwhole fun _ => rfl, fun x hx => ?_⟩
    · exact hs.entries_lt q k (file_of_update (by simp) hq)
    · exact hs.drafts q k hname (file_of_update (by simp) hq)
    · obtain ⟨gone, heq, hgone⟩ := hs.editions q hname
      rcases eq_or_ne q p with rfl | hqp
      · refine ⟨n :: gone, ?_, ?_⟩
        · simpa [Shared.remove, Entry.files, hp] using heq
        · simpa [Shared.remove] using hgone
      · refine ⟨gone, ?_, ?_⟩
        · simpa [Shared.remove, Function.update_of_ne hqp] using heq
        · simpa [Shared.remove, Function.update_of_ne hqp] using hgone
    · obtain ⟨hname, hx⟩ := hs.abandoned x hx
      refine ⟨hname, ?_⟩
      rw [← hx]
      exact Function.update_of_ne (by rintro heq; exact hdraft (heq ▸ hname)) _ _

theorem Step.abandoned_subset (h : Step isDraft Q i s d s' d') : s.abandoned ⊆ s'.abandoned := by
  cases h
  case abandon => exact List.subset_cons_self _ _
  all_goals exact List.Subset.refl _

/-- A draft that is there after a step of somebody else was there before. -/
theorem Step.draft_of_other (h : Step isDraft Q i s d s' d') (hij : i ≠ j) {p : P} {n : ℕ} (hname : isDraft p)
    (hp : s'.entries p = some (.file n)) (hn : s'.author n = some j) :
    s.entries p = some (.file n) ∧ s.author n = some j := by
  cases h with
  | stay | seals | abandon | change => exact ⟨hp, hn⟩
  | mkdir | unlink | remove => exact ⟨file_of_update (by simp) hp, hn⟩
  | create q m hdraft hq =>
    have hne : n ≠ s.count := by
      rintro rfl
      simp only [Shared.create, Function.update_self] at hn
      exact hij (Option.some.inj hn)
    have hpq : p ≠ q := by
      rintro rfl
      simp only [Shared.create, Function.update_self] at hp
      exact hne (by simpa [eq_comm] using hp)
    exact ⟨(Function.update_of_ne hpq _ _).symm.trans hp, (Function.update_of_ne hne _ _).symm.trans hn⟩
  | link r q k hdraft hq hQ =>
    have hpq : p ≠ q := by
      rintro rfl
      exact hdraft hname
    exact ⟨(Function.update_of_ne hpq _ _).symm.trans hp, hn⟩

omit [DecidableEq P] in
theorem DraftGood.seal {p : P} {n : ℕ} (h : DraftGood isDraft i s (some ⟨p, n, false⟩)) :
    DraftGood isDraft i s (some ⟨p, n, true⟩) := by
  refine ⟨?_, ?_, ?_, ?_, fun q k hname hq hk => ?_⟩
  · rintro x ⟨⟩
    exact h.name ⟨p, n, false⟩ rfl
  · rintro x ⟨⟩
    exact h.author ⟨p, n, false⟩ rfl
  · rintro x ⟨⟩ ⟨⟩
  · rintro x ⟨⟩
    exact h.kept ⟨p, n, false⟩ rfl
  · obtain ⟨x, ⟨⟩, rfl, rfl⟩ | hleft := h.left q k hname hq hk
    · exact .inl ⟨_, rfl, rfl, rfl⟩
    · exact .inr hleft

/-- What holds of an author and its draft is kept by its own steps. -/
theorem Step.draftGood (h : Step isDraft Q i s d s' d') (hs : s.Good isDraft Q) (hd : DraftGood isDraft i s d) :
    DraftGood isDraft i s' d' := by
  cases h with
  | stay => exact hd
  | mkdir _ p hp =>
    refine ⟨fun x hx => ?_, hd.author, hd.unlinked, hd.kept, fun q n hname hq hn => ?_⟩
    · obtain ⟨hname, hentry⟩ := hd.name x hx
      have hne : x.name ≠ p := by
        rintro rfl
        simp [hentry] at hp
      exact ⟨hname, (Function.update_of_ne hne _ _).trans hentry⟩
    · exact hd.left q n hname (file_of_update (by simp) hq) hn
  | create p m hdraft hp =>
    refine ⟨?_, ?_, ?_, ?_, fun q n hname hq hn => ?_⟩
    · rintro x ⟨⟩
      exact ⟨hdraft, Function.update_self _ _ _⟩
    · rintro x ⟨⟩
      exact Function.update_self _ _ _
    · rintro x ⟨⟩ - q hq
      exact lt_irrefl _ (hs.editions_lt q _ hq)
    · rintro x ⟨⟩ hx
      simp [(hs.abandoned _ hx).2] at hp
    · rcases eq_or_ne q p with rfl | hqp
      · simp only [Shared.create, Function.update_self] at hq
        exact .inl ⟨_, rfl, rfl, by simpa using hq⟩
      · simp only [Shared.create, Function.update_of_ne hqp] at hq
        simp only [Shared.create, Function.update_of_ne (Nat.ne_of_lt (hs.entries_lt q n hq))] at hn
        obtain ⟨x, hx, -⟩ | hleft := hd.left q n hname hq hn
        · cases hx
        · exact .inr hleft
  | change p n m => exact ⟨hd.name, hd.author, hd.unlinked, hd.kept, hd.left⟩
  | seals p n => exact hd.seal
  | link p q n hdraft hq hQ =>
    have hne : ∀ r, isDraft r → r ≠ q := by
      rintro r hr rfl
      exact hdraft hr
    refine ⟨fun x hx => ?_, hd.seal.author, ?_, hd.seal.kept, fun r k hname hr hk => ?_⟩
    · obtain ⟨hname, hentry⟩ := hd.seal.name x hx
      exact ⟨hname, (Function.update_of_ne (hne _ hname) _ _).trans hentry⟩
    · rintro x ⟨⟩ ⟨⟩
    · exact hd.seal.left r k hname ((Function.update_of_ne (hne r hname) _ _).symm.trans hr) hk
  | unlink p n =>
    refine ⟨by simp, by simp, by simp, by simp, fun q k hname hq hk => ?_⟩
    obtain ⟨x, ⟨⟩, rfl, rfl⟩ | hleft := hd.left q k hname (file_of_update (by simp) hq) hk
    · simp only [Shared.unlink, Function.update_self] at hq
      cases hq
    · exact .inr hleft
  | abandon x =>
    refine ⟨by simp, by simp, by simp, by simp, fun q k hname hq hk => ?_⟩
    obtain ⟨y, ⟨⟩, rfl, rfl⟩ | hleft := hd.left q k hname hq hk
    · exact .inr List.mem_cons_self
    · exact .inr (List.mem_cons_of_mem _ hleft)
  | remove _ p n hdraft hp =>
    refine ⟨fun x hx => ?_, hd.author, hd.unlinked, hd.kept, fun q k hname hq hk => ?_⟩
    · obtain ⟨hname, hentry⟩ := hd.name x hx
      have hne : x.name ≠ p := by
        rintro rfl
        exact hdraft hname
      exact ⟨hname, (Function.update_of_ne hne _ _).trans hentry⟩
    · exact hd.left q k hname (file_of_update (by simp) hq) hk

/-- It is kept by the steps of the others. -/
theorem Step.draftGood_others (h : Step isDraft Q i s d s' d') (hs : s.Good isDraft Q)
    (hd : DraftGood isDraft i s d) (he : DraftGood isDraft j s e) (hij : i ≠ j) : DraftGood isDraft j s' e := by
  refine ⟨fun x hx => ?_, fun x hx => ?_, fun x hx hopen => ?_, fun x hx => ?_, fun p n hname hp hn => ?_⟩
  · rw [(h.keeps hs hd he hij x hx).1]
    exact he.name x hx
  · rw [(h.keeps hs hd he hij x hx).2.2.1]
    exact he.author x hx
  · exact (h.keeps hs hd he hij x hx).2.2.2.1 (he.unlinked x hx hopen)
  · exact (h.keeps hs hd he hij x hx).2.2.2.2 (he.kept x hx)
  · obtain ⟨hp, hn⟩ := h.draft_of_other hij hname hp hn
    exact (he.left p n hname hp hn).imp_right fun hleft => h.abandoned_subset hleft

end Steps

/-- At first there are directories. -/
structure Shared.Initial (s : Shared ι P M) : Prop where
  entries : ∀ p n, s.entries p ≠ some (.file n)
  author : ∀ n, s.author n = none
  editions : ∀ p, s.editions p = []
  removals : ∀ p, s.removals p = 0
  abandoned : s.abandoned = []

section Threads

variable [DecidableEq P] {isDraft : P → Prop} {Q : P → M → Prop} {s : Shared ι P M} {L : Type}

theorem Shared.Initial.good (h : s.Initial) : s.Good isDraft Q where
  entries_lt p n hn := absurd hn (h.entries p n)
  author_lt n i hi := by simp [h.author] at hi
  editions_lt p n hn := by simp [h.editions] at hn
  drafts p n _ hn := absurd hn (h.entries p n)
  editions p _ := by
    refine ⟨[], ?_, (h.removals p).symm⟩
    have hfiles : Entry.files (s.entries p) = [] := by
      rw [List.eq_nil_iff_forall_not_mem]
      intro n hn
      exact h.entries p n (Entry.mem_files.mp hn)
    rw [h.editions, hfiles, List.append_nil]
  whole p n hn := by simp [h.editions] at hn
  abandoned x hx := by simp [h.abandoned] at hx

/-- What the steps of others leave of what concerns an author with the draft `d`. -/
structure Rely (isDraft : P → Prop) (d : Option (Draft P)) (s s' : Shared ι P M) : Prop extends s.Grows isDraft s' where
  draft : ∀ x ∈ d, s'.inodes x.file = s.inodes x.file

/-- **Publishing**: threads that do such steps keep the invariants, with what else holds of
each thread, if its own steps and those of the others keep that. -/
theorem isInvariant [DecidableEq ι] {init : Shared ι P M → (ι → L) → Prop}
    {act : ι → Threads ι (Shared ι P M) L → Shared ι P M → L → Prop} {draft : L → Option (Draft P)}
    {J : ι → Shared ι P M → L → Prop}
    (hinit : ∀ s loc, init s loc → s.Initial ∧ ∀ i, draft (loc i) = none ∧ J i s (loc i))
    (hstep : ∀ i σ s l, act i σ s l → σ.shared.Good isDraft Q → DraftGood isDraft i σ.shared (draft (σ.loc i)) →
      J i σ.shared (σ.loc i) → Step isDraft Q i σ.shared (draft (σ.loc i)) s (draft l))
    (hown : ∀ i σ s l, act i σ s l → σ.shared.Good isDraft Q → DraftGood isDraft i σ.shared (draft (σ.loc i)) →
      J i σ.shared (σ.loc i) → σ.shared.Grows isDraft s → J i s l)
    (hrely : ∀ i s s' l, Rely isDraft (draft l) s s' → J i s l → J i s' l) :
    (Threads.system init act).IsInvariant fun σ =>
      σ.shared.Good isDraft Q ∧ ∀ i, DraftGood isDraft i σ.shared (draft (σ.loc i)) ∧ J i σ.shared (σ.loc i) := by
  refine Threads.Stable.isInvariant (I := fun i s l => DraftGood isDraft i s (draft l) ∧ J i s l) ⟨?_, ?_, ?_⟩
  · intro s loc h
    obtain ⟨hs, hloc⟩ := hinit s loc h
    refine ⟨hs.good, fun i => ?_⟩
    obtain ⟨hnone, hJ⟩ := hloc i
    rw [hnone]
    exact ⟨⟨by simp, by simp, by simp, by simp, fun p n _ hp _ => absurd hp (hs.entries p n)⟩, hJ⟩
  · intro i σ s l h hs ⟨hd, hJ⟩
    have hst := hstep i σ s l h hs hd hJ
    exact ⟨hst.good hs hd, hst.draftGood hs hd, hown i σ s l h hs hd hJ (hst.grows hs hd)⟩
  · intro i j σ s l hij h hs ⟨hd, hJ⟩ ⟨he, hJ'⟩
    have hst := hstep i σ s l h hs hd hJ
    refine ⟨hst.draftGood_others hs hd he hij.symm, hrely j _ _ _ ⟨hst.grows hs hd, fun x hx => ?_⟩ hJ'⟩
    exact (hst.keeps hs hd he hij.symm x hx).2.1

end Threads

end Publishing
