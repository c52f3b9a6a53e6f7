import AlephZero.Cmp
import AlephZero.Machine.DirTree
import AlephZero.Machine.Runs
import AlephZero.Map.Basic
import AlephZero.Pathglob.Basic

/-!
# Discovery

`discovery.c`, with the listing of a directory from `file.c`: a thread that calls back with
the path of each file that matches a glob, those that are there and those that are made.

## The model

The tree below the watched root changes between any two steps of the thread. A step of the
thread is what it does around one call of the system: it asks for a watch, opens a
directory, takes an entry, reads reports, or handles one. The calls of
`a0_discovery_watch_recursive` that have not returned are a stack. There is no thread any
more when it has done what C does not define: `a0_file_iter_init` has failed, and its
caller reads from a stream that was not set, or a path is longer than its array. A
directory's entries for itself and its parent, which `a0_file_iter_next` passes over, are
left out. Paths are absolute, so `a0_abspath` in `a0_file_iter_init` changes nothing.
-/

namespace AlephZero

open DirTree

/-- `PATH_MAX`. -/
def pathMax : ℕ := 4096

/-- The name of an entry of a directory. -/
structure FileName where
  str : CString
  nonempty : str.bytes ≠ []
  noSlash : 47 ∉ str.bytes
  deriving DecidableEq

/-- A literal as a name. -/
def FileName.ofString (s : String) (h : (CString.ofString s).bytes ≠ [] ∧ 47 ∉ (CString.ofString s).bytes) : FileName :=
  ⟨.ofString s, h.1, h.2⟩

/-- The path of an entry of a directory, as `a0_file_iter_next` and
`a0_discovery_inotify_runone` spell it. -/
def fullpath (path : CString) (name : FileName) : CString where
  bytes := (if path.at (path.bytes.length - 1) = 47 then path.bytes else path.bytes ++ [47]) ++ name.str.bytes
  nonNull := by
    intro h
    rcases List.mem_append.mp h with h | h
    · split_ifs at h
      · exact path.nonNull h
      · rcases List.mem_append.mp h with h | h
        · exact path.nonNull h
        · simp at h
    · exact name.str.nonNull h

instance : Inhabited CString := ⟨⟨[], List.not_mem_nil⟩⟩

/-- `a0_discovery_t`. -/
structure Discovery where
  pathglob : Pathglob
  /-- From the descriptors of watches to the paths of directories. -/
  watchMap : Map UInt32 CString
  reverseWatchMap : Map CString ℕ
  discoveredMap : Map CString ℕ

namespace Discovery

/-! ### The root -/

/-- The string that the first bytes are, when a null byte is put behind them. -/
def truncated (path : CString) (n : ℕ) : CString := ⟨path.bytes.take n, fun h => path.nonNull (List.mem_of_mem_take h)⟩

/-- The loop of `a0_discovery_rootlen`; `stat` says what is there. -/
def rootlenLoop (path : CString) (stat : CString → Bool) : List Part → ℕ
  | [] => 0
  | [part] => part.str.data
  | part :: next :: parts =>
    if part.type ≠ .verbatim then part.str.data
    else if stat (truncated path (part.str.data + part.str.size + 1)) then rootlenLoop path stat (next :: parts)
    else part.str.data

/-- `a0_discovery_rootlen`. -/
def rootlen (glob : Pathglob) (stat : CString → Bool) : ℕ := rootlenLoop glob.abspath stat glob.parts

/-- The path that `a0_discovery_watch_root` watches. -/
def rootPath (glob : Pathglob) (stat : CString → Bool) : CString := truncated glob.abspath (rootlen glob stat)

/-! ### Watches and callbacks -/

variable {root : CString}

/-- `a0_discovery_init`. -/
def init (glob : Pathglob) : Discovery :=
  ⟨glob, Map.init hashU32 cmpU32, Map.init hashStr cmpStr, Map.init hashStr cmpStr⟩

/-- `a0_discovery_watch_path`; a watch that is added has the descriptor `new`. -/
def watchPath (d : Discovery) (tree : DirTree fullpath root UInt32) (path : CString) (new : UInt32) :
    Option (Discovery × DirTree fullpath root UInt32) :=
  match d.reverseWatchMap.has path with
  | none => none
  | some true => some (d, tree)
  | some false =>
    match if path.bytes.length < pathMax then tree.addWatch path new else (none, tree) with
    | (none, tree) => some (d, tree)
    | (some wd, tree) =>
      (d.watchMap.put wd path).bind fun (_, watchMap) =>
        (d.reverseWatchMap.put path 0).map fun (_, reverseWatchMap) => ({ d with watchMap, reverseWatchMap }, tree)

/-- `a0_discovery_announce`, with the paths that the callback is called with. -/
def announce (d : Discovery) (path : CString) : Option (Discovery × List CString) :=
  match d.discoveredMap.has path with
  | none => none
  | some true => some (d, [])
  | some false => (d.discoveredMap.put path 0).map fun (_, discoveredMap) => ({ d with discoveredMap }, [path])

/-- A path is announced if it matches; `env` is the value of `A0_ROOT`. -/
def matchAnnounce (d : Discovery) (env path : CString) : Option (Discovery × List CString) :=
  match d.pathglob.pathMatch env (some path) with
  | none => none
  | some (.ok true) => d.announce path
  | some _ => some (d, [])

/-! ### The thread -/

/-- Where a call of `a0_discovery_watch_recursive` is. -/
inductive Frame where
  /-- In front of `a0_discovery_watch_path`. -/
  | enter (path : CString)
  /-- In front of `a0_file_iter_init`. -/
  | opening (path : CString)
  /-- In front of `a0_file_iter_next`. -/
  | listing (l : Listing CString FileName)
  deriving DecidableEq

/-- The thread: the calls that have not returned, the innermost first, and the rest of what
`a0_discovery_inotify_runone` has read. -/
structure Thread where
  d : Discovery
  buf : List (Report UInt32 FileName)
  stack : List Frame

/-- What a step of the thread leaves, with the paths that the callback is called with. -/
abbrev Outcome (root : CString) : Type := Option (Thread × DirTree fullpath root UInt32 × List CString)

/-- `a0_discovery_watch_recursive`, its first call. -/
def Thread.watch (t : Thread) (tree : DirTree fullpath root UInt32) (path : CString) (rest : List Frame)
    (new : UInt32) : Outcome root :=
  (t.d.watchPath tree path new).map fun (d, tree) => ({ t with d, stack := .opening path :: rest }, tree, [])

/-- `a0_file_iter_init`. -/
def fileIterInit (tree : DirTree fullpath root UInt32) (path : CString) : Option (Listing CString FileName) :=
  if path.bytes.length < pathMax ∧ IsDir fullpath root tree.nodes path then some (.start tree path) else none

/-- `a0_discovery_watch_recursive`, with the directory that it opens. -/
def Thread.openDir (t : Thread) (tree : DirTree fullpath root UInt32) (path : CString) (rest : List Frame) :
    Outcome root :=
  (fileIterInit tree path).map fun l => ({ t with stack := .listing l :: rest }, tree, [])

/-- The loop of `a0_discovery_watch_recursive`, with an entry that it is given. -/
def Thread.next (t : Thread) (env : CString) (tree : DirTree fullpath root UInt32) (l : Listing CString FileName)
    (rest : List Frame) (entry : Dirent FileName) : Outcome root :=
  let path := fullpath l.dir entry.name
  let stack := .listing (l.give entry) :: rest
  if pathMax < path.bytes.length then none
  else
    match entry.kind with
    | .dir => some ({ t with stack := .enter path :: stack }, tree, [])
    | .reg => (t.d.matchAnnounce env path).map fun (d, called) => ({ t with d, stack }, tree, called)
    | .other => some ({ t with stack }, tree, [])

/-- The loop of `a0_discovery_inotify_runone`. -/
def Thread.handle (t : Thread) (env : CString) (tree : DirTree fullpath root UInt32)
    (buf : List (Report UInt32 FileName)) : Report UInt32 FileName → Outcome root
  | .ignored _ => some ({ t with buf }, tree, [])
  | .created wd name isDir =>
    match t.d.watchMap.get wd with
    | some (.ok parent) =>
      let abspath := fullpath parent name
      if isDir then some ({ t with buf, stack := [.enter abspath] }, tree, [])
      else (t.d.matchAnnounce env abspath).map fun (d, called) => ({ t with d, buf }, tree, called)
    | _ => none

/-! ### Runs -/

/-- The tree, the thread, and what the callback has been called with. -/
structure State (root : CString) where
  tree : DirTree fullpath root UInt32
  thread : Option Thread
  announced : List CString

/-- What happens. -/
inductive Act where
  /-- An entry is made. -/
  | create (dir : CString) (entry : Dirent FileName)
  /-- An entry is removed. -/
  | remove (x : Node CString FileName)
  /-- The thread watches a directory. -/
  | watch (new : UInt32)
  /-- The thread opens a directory. -/
  | openDir
  /-- The thread is given an entry. -/
  | next (entry : Dirent FileName)
  /-- A listing has ended. -/
  | done
  /-- The thread reads so many reports and one more. -/
  | read (n : ℕ)
  /-- The thread handles a report. -/
  | handle
  deriving DecidableEq

/-- A frame whose listing has changed. -/
def Frame.mapListing (f : Listing CString FileName → Listing CString FileName) : Frame → Frame
  | .enter path => .enter path
  | .opening path => .opening path
  | .listing l => .listing (f l)

/-- The thread when its listings have changed. -/
def Thread.mapListings (f : Listing CString FileName → Listing CString FileName) (t : Thread) : Thread :=
  { t with stack := t.stack.map (Frame.mapListing f) }

/-- The state that a step of the thread leaves. -/
def State.outcome (s : State root) : Outcome root → State root
  | none => { s with thread := none }
  | some (t, tree, called) => ⟨tree, some t, s.announced ++ called⟩

/-- What the thread does, if it is its turn to do that. -/
def Thread.act (t : Thread) (env : CString) (tree : DirTree fullpath root UInt32) : Act → Option (Outcome root)
  | .watch new =>
    match t.stack with
    | .enter path :: rest => if new ∈ tree.given then none else some (t.watch tree path rest new)
    | _ => none
  | .openDir =>
    match t.stack with
    | .opening path :: rest => some (t.openDir tree path rest)
    | _ => none
  | .next entry =>
    match t.stack with
    | .listing l :: rest => if entry ∈ l.may then some (t.next env tree l rest entry) else none
    | _ => none
  | .done =>
    match t.stack with
    | .listing l :: rest => if l.owed = [] then some (some ({ t with stack := rest }, tree, [])) else none
    | _ => none
  | .read n =>
    if t.stack = [] ∧ t.buf = [] ∧ n < tree.queue.length then
      some (some ({ t with buf := tree.queue.take (n + 1) }, tree.read (n + 1), []))
    else none
  | .handle =>
    match t.stack, t.buf with
    | [], ev :: buf => some (t.handle env tree buf ev)
    | _, _ => none
  | _ => none

section Turns

variable {t : Thread} {env : CString} {tree : DirTree fullpath root UInt32} {o : Outcome root}

@[simp]
theorem Thread.act_create {dir : CString} {entry : Dirent FileName} : t.act env tree (.create dir entry) = none :=
  rfl

@[simp]
theorem Thread.act_remove {x : Node CString FileName} : t.act env tree (.remove x) = none :=
  rfl

theorem Thread.act_watch {new : UInt32} (h : t.act env tree (.watch new) = some o) :
    ∃ path rest, t.stack = .enter path :: rest ∧ new ∉ tree.given ∧ t.watch tree path rest new = o := by
  delta Thread.act at h
  dsimp only at h
  split at h
  · rename_i path rest hstack
    split_ifs at h with hnew
    exact ⟨path, rest, hstack, hnew, Option.some.inj h⟩
  · cases h

theorem Thread.act_openDir (h : t.act env tree .openDir = some o) :
    ∃ path rest, t.stack = .opening path :: rest ∧ t.openDir tree path rest = o := by
  delta Thread.act at h
  dsimp only at h
  split at h
  · rename_i path rest hstack
    exact ⟨path, rest, hstack, Option.some.inj h⟩
  · cases h

theorem Thread.act_next {entry : Dirent FileName} (h : t.act env tree (.next entry) = some o) :
    ∃ l rest, t.stack = .listing l :: rest ∧ entry ∈ l.may ∧ t.next env tree l rest entry = o := by
  delta Thread.act at h
  dsimp only at h
  split at h
  · rename_i l rest hstack
    split_ifs at h with hmay
    exact ⟨l, rest, hstack, hmay, Option.some.inj h⟩
  · cases h

theorem Thread.act_done (h : t.act env tree .done = some o) :
    ∃ l rest, t.stack = .listing l :: rest ∧ l.owed = [] ∧ some ({ t with stack := rest }, tree, []) = o := by
  delta Thread.act at h
  dsimp only at h
  split at h
  · rename_i l rest hstack
    split_ifs at h with howed
    exact ⟨l, rest, hstack, howed, Option.some.inj h⟩
  · cases h

theorem Thread.act_read {n : ℕ} (h : t.act env tree (.read n) = some o) :
    t.buf = [] ∧ some ({ t with buf := tree.queue.take (n + 1) }, tree.read (n + 1), []) = o := by
  delta Thread.act at h
  dsimp only at h
  split_ifs at h with hread
  exact ⟨hread.2.1, Option.some.inj h⟩

theorem Thread.act_handle (h : t.act env tree .handle = some o) :
    ∃ ev buf, t.stack = [] ∧ t.buf = ev :: buf ∧ t.handle env tree buf ev = o := by
  delta Thread.act at h
  dsimp only at h
  split at h
  · rename_i ev buf hstack hbuf
    exact ⟨ev, buf, hstack, hbuf, Option.some.inj h⟩
  · cases h

end Turns

/-- What an act leads to, if it is possible. -/
def State.step (env : CString) (s : State root) : Act → Option (State root)
  | .create dir entry =>
    if h : IsDir fullpath root s.tree.nodes dir ∧ ¬ Exists fullpath root s.tree.nodes (fullpath dir entry.name) then
      some { s with
        tree := s.tree.create dir entry h.1 h.2
        thread := s.thread.map (Thread.mapListings (Listing.create dir entry)) }
    else none
  | .remove x =>
    if h : x ∈ s.tree.nodes ∧ ∀ y ∈ s.tree.nodes, y.dir ≠ x.path fullpath then
      some { s with
        tree := s.tree.remove x h.1 h.2
        thread := s.thread.map (Thread.mapListings (Listing.remove fullpath x)) }
    else none
  | a => (s.thread.bind fun t => t.act env s.tree a).map s.outcome

/-- There is only the root, and the thread is about to watch it. -/
def State.start (root : CString) (glob : Pathglob) : State root where
  tree := ⟨[], [], [], [], trivial, List.forall_mem_nil _⟩
  thread := some ⟨Discovery.init glob, [], [.enter root]⟩
  announced := []

/-- The thread waits, and nothing is left for it to read. -/
def State.Idle (s : State root) : Prop :=
  s.tree.queue = [] ∧ ∃ t, s.thread = some t ∧ t.stack = [] ∧ t.buf = []

/-- Discovery with a glob, below the root that is watched. -/
def system (env root : CString) (glob : Pathglob) : TransitionSystem (State root) where
  init s := s = .start root glob
  step s s' := ∃ a, s.step env a = some s'

end Discovery

end AlephZero
