import Mathlib.Data.List.Basic

/-!
# Directory trees that are watched

The tree of directories and files below a directory, while entries come and go, with what
is reported of it to a watcher and what a listing of a directory gives.

## The model

`join d n` is the path of the entry `n` of the directory `d`. The tree is the list of its
entries, the newest first; its root is none of them, and stays. A watch on a directory
reports each entry that is made in it, in order, and is gone with the directory. A listing
owes the entries that are there from its opening to its end. It may give any other one that
was there for some of that time.

## What is proved

* `isDir_create`, `isDir_remove`, `mem_remove` — what is there when an entry has been made or removed.
* `reported_create` — an entry that is made in a watched directory is reported.
* `dir_induction` — what holds of the root, and of an entry if of its directory, holds of
  each directory.
-/

namespace DirTree

/-- What a directory has an entry for. -/
inductive Kind where
  | dir | reg | other
  deriving DecidableEq

/-- An entry of a directory. -/
structure Dirent (N : Type) where
  name : N
  kind : Kind
  deriving DecidableEq

/-- An entry, with its directory. -/
structure Node (P N : Type) where
  dir : P
  entry : Dirent N
  deriving DecidableEq

/-- What a watcher is told. -/
inductive Report (W N : Type) where
  /-- An entry has been made in the directory of a watch. -/
  | created (wd : W) (name : N) (isDir : Bool)
  /-- A watch is gone. -/
  | ignored (wd : W)
  deriving DecidableEq

variable {P N W : Type}

/-- The path of an entry. -/
def Node.path (join : P → N → P) (x : Node P N) : P := join x.dir x.entry.name

/-- The path is that of a directory. -/
def IsDir (join : P → N → P) (root : P) (nodes : List (Node P N)) (p : P) : Prop :=
  p = root ∨ ∃ x ∈ nodes, x.entry.kind = .dir ∧ x.path join = p

/-- There is something at the path. -/
def Exists (join : P → N → P) (root : P) (nodes : List (Node P N)) (p : P) : Prop :=
  p = root ∨ ∃ x ∈ nodes, x.path join = p

/-- Each entry has been made in a directory, at a path where there was nothing. -/
def Grown (join : P → N → P) (root : P) : List (Node P N) → Prop
  | [] => True
  | x :: nodes => IsDir join root nodes x.dir ∧ ¬ Exists join root nodes (x.path join) ∧ Grown join root nodes

instance [DecidableEq P] {join : P → N → P} {root : P} {nodes : List (Node P N)} {p : P} :
    Decidable (IsDir join root nodes p) :=
  inferInstanceAs (Decidable (_ ∨ _))

instance [DecidableEq P] {join : P → N → P} {root : P} {nodes : List (Node P N)} {p : P} :
    Decidable (Exists join root nodes p) :=
  inferInstanceAs (Decidable (_ ∨ _))

end DirTree

/-- A tree of directories, its watches, and the reports that have not been read. -/
structure DirTree (join : P → N → P) (root : P) (W : Type) where
  nodes : List (DirTree.Node P N)
  watches : List (W × P)
  /-- The descriptors that have ever been given to a watch. -/
  given : List W
  queue : List (DirTree.Report W N)
  grown : DirTree.Grown join root nodes
  watches_given : ∀ w ∈ watches, w.1 ∈ given

namespace DirTree

variable {join : P → N → P} {root p d : P} {nodes : List (Node P N)} {x y : Node P N} {e : Dirent N}
  {t : DirTree join root W} {w new : W}

/-! ### Entries -/

theorem isDir_cons : IsDir join root (x :: nodes) p ↔
    IsDir join root nodes p ∨ x.entry.kind = .dir ∧ x.path join = p := by
  simp only [IsDir, List.mem_cons, exists_eq_or_imp]
  constructor
  · rintro (h | h | h)
    exacts [.inl (.inl h), .inr h, .inl (.inr h)]
  · rintro ((h | h) | h)
    exacts [.inl h, .inr (.inr h), .inr (.inl h)]

theorem exists_of_mem (hx : x ∈ nodes) : Exists join root nodes (x.path join) := .inr ⟨x, hx, rfl⟩

theorem Grown.path_ne_root (h : Grown join root nodes) (hx : x ∈ nodes) : x.path join ≠ root := by
  induction nodes with
  | nil => cases hx
  | cons z nodes ih =>
    obtain ⟨-, hnew, hgrown⟩ := h
    rcases List.mem_cons.mp hx with rfl | hx
    · exact fun hp => hnew (.inl hp)
    · exact ih hgrown hx

theorem Grown.isDir_dir (h : Grown join root nodes) (hx : x ∈ nodes) : IsDir join root nodes x.dir := by
  induction nodes with
  | nil => cases hx
  | cons z nodes ih =>
    obtain ⟨hdir, -, hgrown⟩ := h
    rcases List.mem_cons.mp hx with rfl | hx
    · exact isDir_cons.mpr (.inl hdir)
    · exact isDir_cons.mpr (.inl (ih hgrown hx))

/-- **Chains of directories**: what holds of the root, and of a directory whenever it holds
of the one that it is in, holds of each directory. -/
theorem dir_induction {Q : P → Prop} (h : Grown join root nodes) (hroot : Q root)
    (hstep : ∀ x ∈ nodes, x.entry.kind = .dir → Q x.dir → Q (x.path join)) (hp : IsDir join root nodes p) : Q p := by
  induction nodes generalizing p with
  | nil =>
    obtain rfl | ⟨x, hx, -⟩ := hp
    · exact hroot
    · cases hx
  | cons x nodes ih =>
    obtain ⟨hdir, -, hgrown⟩ := h
    have hrest : ∀ {q}, IsDir join root nodes q → Q q :=
      ih hgrown fun y hy => hstep y (List.mem_cons_of_mem _ hy)
    rcases isDir_cons.mp hp with hp | ⟨hk, rfl⟩
    · exact hrest hp
    · exact hstep x List.mem_cons_self hk (hrest hdir)

/-! ### Making and removing entries -/

/-- The entries of a directory. -/
def entries [DecidableEq P] (t : DirTree join root W) (p : P) : List (Dirent N) :=
  (t.nodes.filter (·.dir = p)).map (·.entry)

theorem mem_entries_iff [DecidableEq P] : e ∈ t.entries p ↔ ∃ x ∈ t.nodes, x.dir = p ∧ x.entry = e := by
  simp [entries, and_assoc]

/-- The tree when an entry has been made. -/
def create [DecidableEq P] (t : DirTree join root W) (d : P) (e : Dirent N) (hd : IsDir join root t.nodes d)
    (hnew : ¬ Exists join root t.nodes (join d e.name)) : DirTree join root W where
  nodes := ⟨d, e⟩ :: t.nodes
  watches := t.watches
  given := t.given
  queue := t.queue ++ (t.watches.filter (·.2 = d)).map fun w => .created w.1 e.name (e.kind = .dir)
  grown := ⟨hd, hnew, t.grown⟩
  watches_given := t.watches_given

/-- What is left of the entries when one has been removed. -/
def remaining [DecidableEq P] (join : P → N → P) (x : Node P N) (nodes : List (Node P N)) : List (Node P N) :=
  nodes.filter (·.path join ≠ x.path join)

theorem mem_remaining [DecidableEq P] : y ∈ remaining join x nodes ↔ y ∈ nodes ∧ y.path join ≠ x.path join := by
  simp [remaining]

theorem isDir_remaining [DecidableEq P] (hx : x.path join ≠ root) :
    IsDir join root (remaining join x nodes) p ↔ IsDir join root nodes p ∧ p ≠ x.path join := by
  simp only [IsDir, mem_remaining]
  constructor
  · rintro (rfl | ⟨y, ⟨hy, hne⟩, hk, rfl⟩)
    · exact ⟨.inl rfl, hx.symm⟩
    · exact ⟨.inr ⟨y, hy, hk, rfl⟩, hne⟩
  · rintro ⟨rfl | ⟨y, hy, hk, rfl⟩, hne⟩
    · exact .inl rfl
    · exact .inr ⟨y, ⟨hy, hne⟩, hk, rfl⟩

theorem Grown.remaining [DecidableEq P] (h : Grown join root nodes) (hx : x.path join ≠ root)
    (hempty : ∀ y ∈ nodes, y.dir ≠ x.path join) : Grown join root (remaining join x nodes) := by
  induction nodes with
  | nil => trivial
  | cons z nodes ih =>
    obtain ⟨hdir, hnew, hgrown⟩ := h
    have hrest := ih hgrown fun y hy => hempty y (List.mem_cons_of_mem _ hy)
    by_cases hz : z.path join = x.path join
    · rwa [DirTree.remaining, List.filter_cons_of_neg (by simpa using hz)]
    · rw [DirTree.remaining, List.filter_cons_of_pos (by simpa using hz)]
      refine ⟨(isDir_remaining hx).mpr ⟨hdir, hempty z List.mem_cons_self⟩, ?_, hrest⟩
      rintro (hp | ⟨y, hy, hp⟩)
      · exact hnew (.inl hp)
      · exact hnew (.inr ⟨y, (mem_remaining.mp hy).1, hp⟩)

/-- The tree when an entry that no other one is in has been removed. -/
def remove [DecidableEq P] (t : DirTree join root W) (x : Node P N) (hx : x ∈ t.nodes)
    (hempty : ∀ y ∈ t.nodes, y.dir ≠ x.path join) : DirTree join root W where
  nodes := remaining join x t.nodes
  watches := t.watches.filter (·.2 ≠ x.path join)
  given := t.given
  queue := t.queue ++ (t.watches.filter (·.2 = x.path join)).map fun w => .ignored w.1
  grown := t.grown.remaining (t.grown.path_ne_root hx) hempty
  watches_given w hw := t.watches_given w (List.mem_of_mem_filter hw)

section Changes

variable [DecidableEq P] {hd : IsDir join root t.nodes d} {hnew : ¬ Exists join root t.nodes (join d e.name)}
  {hx : x ∈ t.nodes} {hempty : ∀ y ∈ t.nodes, y.dir ≠ x.path join}

theorem isDir_create : IsDir join root (t.create d e hd hnew).nodes p ↔
    IsDir join root t.nodes p ∨ e.kind = .dir ∧ join d e.name = p := isDir_cons

theorem isDir_remove : IsDir join root (t.remove x hx hempty).nodes p ↔
    IsDir join root t.nodes p ∧ p ≠ x.path join := isDir_remaining (t.grown.path_ne_root hx)

theorem mem_remove : y ∈ (t.remove x hx hempty).nodes ↔ y ∈ t.nodes ∧ y.path join ≠ x.path join := mem_remaining

/-- What is made in a watched directory is reported. -/
theorem reported_create (hw : (w, d) ∈ t.watches) :
    .created w e.name (e.kind = .dir) ∈ (t.create d e hd hnew).queue :=
  List.mem_append_right _ (List.mem_map.mpr ⟨(w, d), List.mem_filter.mpr ⟨hw, decide_eq_true rfl⟩, rfl⟩)

/-- Only that is reported of an entry that is made. -/
theorem mem_queue_create {ev : Report W N} (h : ev ∈ (t.create d e hd hnew).queue) :
    ev ∈ t.queue ∨ ∃ w, (w, d) ∈ t.watches ∧ ev = .created w e.name (e.kind = .dir) := by
  rcases List.mem_append.mp h with h | h
  · exact .inl h
  · obtain ⟨⟨w, q⟩, hw, rfl⟩ := List.mem_map.mp h
    have hwatch := List.mem_filter.mp hw
    have hq : q = d := of_decide_eq_true hwatch.2
    exact .inr ⟨w, hq ▸ hwatch.1, rfl⟩

/-- No entry is reported by a removal. -/
theorem created_mem_queue_remove {n : N} {b : Bool} :
    .created w n b ∈ (t.remove x hx hempty).queue ↔ .created w n b ∈ t.queue := by
  simp [remove]

theorem mem_watches_remove {v : W × P} :
    v ∈ (t.remove x hx hempty).watches ↔ v ∈ t.watches ∧ v.2 ≠ x.path join := by
  simp [remove]

end Changes

/-! ### Watches -/

/-- `inotify_add_watch`: the descriptor of the watch, which is `new` unless the path has one. -/
def addWatch [DecidableEq P] (t : DirTree join root W) (p : P) (new : W) : Option W × DirTree join root W :=
  if Exists join root t.nodes p then
    match t.watches.find? (·.2 = p) with
    | some w => (some w.1, t)
    | none => (some new,
        { t with
          watches := (new, p) :: t.watches
          given := new :: t.given
          watches_given := by
            intro w hw
            rcases List.mem_cons.mp hw with rfl | hw
            · exact List.mem_cons_self
            · exact List.mem_cons_of_mem _ (t.watches_given w hw) })
  else (none, t)

theorem addWatch_of_not_exists [DecidableEq P] (h : ¬ Exists join root t.nodes p) : t.addWatch p new = (none, t) :=
  if_neg h

/-- A new watch. -/
theorem addWatch_of_exists [DecidableEq P] (new : W) (h : Exists join root t.nodes p)
    (hnone : ∀ w, (w, p) ∉ t.watches) :
    ∃ t' : DirTree join root W, t.addWatch p new = (some new, t') ∧ t'.nodes = t.nodes ∧
      t'.watches = (new, p) :: t.watches ∧ t'.given = new :: t.given ∧ t'.queue = t.queue := by
  have hfind : t.watches.find? (·.2 = p) = none := by
    rw [List.find?_eq_none]
    rintro ⟨w, q⟩ hw hq
    obtain rfl : q = p := of_decide_eq_true hq
    exact hnone w hw
  rw [addWatch, if_pos h, hfind]
  exact ⟨_, rfl, rfl, rfl, rfl, rfl⟩

/-- The tree when the first `n` reports have been read. -/
def read (t : DirTree join root W) (n : ℕ) : DirTree join root W := { t with queue := t.queue.drop n }

/-! ### Listings -/

/-- A directory that is being listed. -/
structure Listing (P N : Type) where
  dir : P
  /-- What was there when it was opened, is still there, and has not been given. -/
  owed : List (Dirent N)
  /-- What may still be given. -/
  may : List (Dirent N)
  deriving DecidableEq

namespace Listing

variable {join : P → N → P} {root d : P} {x y : Node P N} {e : Dirent N} {l : Listing P N}

/-- A directory is opened. -/
def start [DecidableEq P] (t : DirTree join root W) (p : P) : Listing P N := ⟨p, t.entries p, t.entries p⟩

/-- The listing when an entry has been made. -/
def create [DecidableEq P] (d : P) (e : Dirent N) (l : Listing P N) : Listing P N :=
  if l.dir = d then { l with may := e :: l.may } else l

/-- The listing when an entry has been removed. -/
def remove [DecidableEq P] (join : P → N → P) (x : Node P N) (l : Listing P N) : Listing P N :=
  { l with owed := l.owed.filter (join l.dir ·.name ≠ x.path join) }

/-- The listing when it has given an entry. -/
def give [DecidableEq N] (e : Dirent N) (l : Listing P N) : Listing P N :=
  { l with owed := l.owed.erase e, may := l.may.erase e }

section Create

variable [DecidableEq P]

@[simp] theorem create_dir : (create d e l).dir = l.dir := by rw [create]; split_ifs <;> rfl

@[simp] theorem create_owed : (create d e l).owed = l.owed := by rw [create]; split_ifs <;> rfl

theorem mem_create_may {e' : Dirent N} (h : e' ∈ (create d e l).may) : e' ∈ l.may ∨ l.dir = d ∧ e' = e := by
  rw [create] at h
  split_ifs at h with hd
  · exact (List.mem_cons.mp h).elim (fun he => .inr ⟨hd, he⟩) .inl
  · exact .inl h

/-- An entry is owed as long as it is there. -/
theorem mem_remove_owed (hy : y.entry ∈ l.owed) (hdir : l.dir = y.dir) (hne : y.path join ≠ x.path join) :
    y.entry ∈ (remove join x l).owed := by
  refine List.mem_filter.mpr ⟨hy, decide_eq_true ?_⟩
  rwa [hdir]

end Create

end Listing

end DirTree
