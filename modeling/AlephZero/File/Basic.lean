import AlephZero.Discovery.Basic
import AlephZero.Machine.Publishing
import AlephZero.Transport.Basic
import Mathlib.Data.List.DropRight

/-!
# Opening files

`file.c`: `a0_file_open`, which maps a file and makes it if there is none, with the directories
on the way, and `a0_file_close` and `a0_file_remove`, in any number of threads.

## The model

A step of a thread is what it does around one call of the system. There are no symbolic
links, so a path leads through its names from the root, and `..` back. What is at a place
decides between `ENOENT` or `EEXIST` and success; apart from that, every call may fail with
another code at any time. All errors are system codes. `mkstemp` finds a name that is free,
and the names that it makes are used by nobody else. Directories stay, and files may be
removed. A descriptor, and a mapping, is the file it is for. A thread that dies leaves
neither.

A call remembers how often the file had been removed as it began, and how often `link` has
found that somebody else was faster. A thread remembers the mappings of those files that
could not be linked: nothing unmaps them.
-/

namespace AlephZero

open Publishing

namespace File

/-! ### Paths -/

/-- A place in the file system: the names on the way from the root. -/
abbrev Place := List (List UInt8)

/-- One name of a path. -/
def descend (place : Place) (name : List UInt8) : Place :=
  if name = [] ∨ name = [46] then place
  else if name = [46, 46] then place.dropLast
  else place ++ [name]

/-- Where an absolute path leads. -/
def locate (path : CString) : Place := (path.bytes.splitOn 47).foldl descend []

/-- The loop of `a0_makedirs`, at `scan`, where the path goes on with `rest`: the paths that
it calls `a0_mkdir` with. -/
def makedirsLoop (path : CString) : List UInt8 → ℕ → ℕ → List CString
  | [], _, _ => []
  | c :: rest, scan, scanStart =>
    if c = 47 then
      (if scan ≠ scanStart then [Discovery.truncated path scan] else []) ++
        makedirsLoop path rest (scan + 1) (scan + 1)
    else makedirsLoop path rest (scan + 1) scanStart

/-- The directories that `a0_makedirs` makes. -/
def makedirs (path : CString) : List CString := makedirsLoop path path.bytes 0 0

/-- `dirname`. -/
def dirname (path : CString) : List UInt8 :=
  let trimmed := path.bytes.rdropWhile (· = 47)
  let slashes := if trimmed = [] then path.bytes else trimmed.rdropWhile (· ≠ 47)
  let dir := slashes.rdropWhile (· = 47)
  if dir ≠ [] then dir
  else if slashes = [] then [46]
  else if slashes = [47, 47] then [47, 47]
  else [47]

/-- What `mkstemp` begins the name of a file with. -/
def tmpPrefix : List UInt8 := (CString.ofString ".alephzero_mkstemp.").bytes

/-- What `mkstemp` puts in the place of `XXXXXX`. -/
structure TmpLetters where
  letters : List UInt8
  length : letters.length = 6
  isAlnum : ∀ c ∈ letters, 48 ≤ c ∧ c ≤ 57 ∨ 65 ≤ c ∧ c ≤ 90 ∨ 97 ≤ c ∧ c ≤ 122

/-- The name of a temporary file in a directory, if it is the result of `a0_joinpath` and `mkstemp`. -/
def IsTmpPath (dir : List UInt8) (x : TmpLetters) (t : CString) : Prop :=
  dir ≠ [] ∧ t.bytes = dir ++ 47 :: (tmpPrefix ++ x.letters)

/-- A place that is one of temporary files. -/
def IsTmp (place : Place) : Prop := ∃ dir, ∃ x : TmpLetters, place = dir ++ [tmpPrefix ++ x.letters]

/-! ### Files -/

/-- `stat_t`, as far as it is used. -/
structure Inode where
  size : ℕ
  mode : UInt32
  deriving DecidableEq

/-- `a0_file_create_options_t`. -/
structure CreateOptions where
  size : ℤ
  mode : UInt32
  dirMode : UInt32
  deriving DecidableEq

/-- `a0_file_options_t`. -/
structure Options where
  createOptions : CreateOptions
  arenaMode : ArenaMode
  deriving DecidableEq

/-- `A0_FILE_OPTIONS_DEFAULT`. -/
def Options.default : Options := ⟨⟨16 * 1024 * 1024, 0o666, 0o777⟩, .shared⟩

end File

/-- `a0_file_t`. -/
structure File where
  path : CString
  /-- What the descriptor is open on. -/
  fd : ℕ
  stat : File.Inode
  arenaMode : ArenaMode
  deriving DecidableEq

namespace File

/-- The size of the arena that is mapped. -/
def size (file : File) : ℕ := file.stat.size

/-- The codes that the functions tell apart, or give. -/
def enoent : ℕ := 2
def eexist : ℕ := 17
def enotdir : ℕ := 20

/-! ### The threads -/

/-- A call of `a0_file_open` that has found its absolute path. -/
structure Call where
  filepath : CString
  opts : Options
  /-- How often the file had been removed as it began. -/
  since : ℕ
  /-- How often `link` has given `EEXIST`. -/
  lost : ℕ

/-- Where the file will be. -/
def Call.place (c : Call) : Place := locate c.filepath

/-- What a file is when it has been made for the call. -/
def Call.IsWhole (c : Call) (inode : Inode) : Prop :=
  (inode.size : ℤ) = c.opts.createOptions.size ∧ inode.mode = c.opts.createOptions.mode &&& 0o7777

/-- Where a thread is: in front of which call of the system. `n` is the file that it has open,
and `t` the path of a temporary one. -/
inductive Pc where
  | out
  /-- In `a0_makedirs`, with the directories that are left. -/
  | makedirs (c : Call) (dirs : List CString)
  | mkdir (c : Call) (dir : CString) (dirs : List CString)
  /-- At the head of the loop of `a0_do_open`. -/
  | open (c : Call)
  | fstat (c : Call) (n : ℕ)
  | mmap (c : Call) (n : ℕ) (stat : Inode)
  /-- In `a0_mktmp`. -/
  | mkstemp (c : Call)
  | fchmod (c : Call) (t : CString) (n : ℕ)
  | ftruncate (c : Call) (t : CString) (n : ℕ)
  | tmpFstat (c : Call) (t : CString) (n : ℕ)
  | tmpMmap (c : Call) (t : CString) (n : ℕ) (stat : Inode)
  /-- In `a0_tmp_move`. -/
  | link (c : Call) (t : CString) (n : ℕ) (stat : Inode)
  | unlink (c : Call) (t : CString) (n : ℕ) (stat : Inode) (err : Option ℕ)
  | dead

structure Proc where
  pc : Pc
  /-- The files that it has opened and not closed. -/
  files : List File
  /-- Its descriptors. -/
  fds : List ℕ
  mappings : List ℕ
  /-- The mappings of files that could not be linked. -/
  unlinked : List ℕ
  /-- What its last call has returned. -/
  result : Option (Except ℕ File)

namespace Proc

variable (p : Proc)

def goto (pc : Pc) : Proc := { p with pc := pc }

def fails (code : ℕ) : Proc := { p with pc := .out, result := some (.error code) }

def opened (file : File) : Proc := { p with pc := .out, files := file :: p.files, result := some (.ok file) }

def withFd (n : ℕ) : Proc := { p with fds := n :: p.fds }

def close (n : ℕ) : Proc := { p with fds := p.fds.erase n }

def withMapping (n : ℕ) : Proc := { p with mappings := n :: p.mappings }

/-- Behind `a0_tmp_move`, in `a0_do_open`. -/
def tmpMoved (c : Call) (n : ℕ) (stat : Inode) : Option ℕ → Proc
  | none => p.opened ⟨c.filepath, n, stat, c.opts.arenaMode⟩
  | some code =>
    let closed := { p.close n with unlinked := n :: p.unlinked }
    if code = eexist then closed.goto (.open { c with lost := c.lost + 1 }) else closed.fails code

/-- `a0_file_close` -/
def closeFile (file : File) : Proc :=
  { p with files := p.files.erase file, fds := p.fds.erase file.fd, mappings := p.mappings.erase file.fd }

def dies : Proc := ⟨.dead, [], [], [], [], p.result⟩

end Proc

/-- The temporary file that a thread has. -/
def Pc.draft : Pc → Option (Draft Place)
  | .fchmod _ t n | .ftruncate _ t n | .tmpFstat _ t n | .tmpMmap _ t n _ | .link _ t n _ => some ⟨locate t, n, false⟩
  | .unlink _ t n _ _ => some ⟨locate t, n, true⟩
  | _ => none

def Proc.draft (p : Proc) : Option (Draft Place) := p.pc.draft

/-- The system calls of a thread that may open these paths with these options; `root` is
the value of `A0_ROOT`. -/
inductive Act {ι : Type} (root : CString) (may : ι → Option CString → Options → Prop) (i : ι)
    (σ : Threads ι (Shared ι Place Inode) Proc) : Shared ι Place Inode → Proc → Prop where
  /-- `a0_abspath` fails. -/
  | refuses (path : Option CString) (opts : Options) (e : Err) (hpc : (σ.loc i).pc = .out) (hmay : may i path opts)
      (hpath : abspath root path = .error e) : Act root may i σ σ.shared ((σ.loc i).fails enoent)
  | begins (path : Option CString) (opts : Options) (filepath : CString) (hpc : (σ.loc i).pc = .out)
      (hmay : may i path opts) (hpath : abspath root path = .ok filepath) :
      Act root may i σ σ.shared
        ((σ.loc i).goto (.makedirs ⟨filepath, opts, σ.shared.removals (locate filepath), 0⟩ (File.makedirs filepath)))
  /-- `a0_makedirs` is done. -/
  | makedirs (c : Call) (hpc : (σ.loc i).pc = .makedirs c []) : Act root may i σ σ.shared ((σ.loc i).goto (.open c))
  /-- `stat` finds a directory. -/
  | statDir (c : Call) (dir : CString) (dirs : List CString) (hpc : (σ.loc i).pc = .makedirs c (dir :: dirs))
      (hdir : σ.shared.entries (locate dir) = some .dir) :
      Act root may i σ σ.shared ((σ.loc i).goto (.makedirs c dirs))
  | statFile (c : Call) (dir : CString) (dirs : List CString) (n : ℕ)
      (hpc : (σ.loc i).pc = .makedirs c (dir :: dirs)) (hfile : σ.shared.entries (locate dir) = some (.file n)) :
      Act root may i σ σ.shared ((σ.loc i).fails enotdir)
  | statFails (c : Call) (dir : CString) (dirs : List CString) (hpc : (σ.loc i).pc = .makedirs c (dir :: dirs)) :
      Act root may i σ σ.shared ((σ.loc i).goto (.mkdir c dir dirs))
  | mkdirs (c : Call) (dir : CString) (dirs : List CString) (hpc : (σ.loc i).pc = .mkdir c dir dirs)
      (hnone : σ.shared.entries (locate dir) = none) :
      Act root may i σ (σ.shared.mkdir (locate dir)) ((σ.loc i).goto (.makedirs c dirs))
  /-- `EEXIST` -/
  | mkdirExists (c : Call) (dir : CString) (dirs : List CString) (hpc : (σ.loc i).pc = .mkdir c dir dirs)
      (hsome : σ.shared.entries (locate dir) ≠ none) :
      Act root may i σ σ.shared ((σ.loc i).goto (.makedirs c dirs))
  | mkdirFails (c : Call) (dir : CString) (dirs : List CString) (code : ℕ)
      (hpc : (σ.loc i).pc = .mkdir c dir dirs) (hcode : code ≠ eexist) :
      Act root may i σ σ.shared ((σ.loc i).fails code)
  | opens (c : Call) (n : ℕ) (hpc : (σ.loc i).pc = .open c) (hfile : σ.shared.entries c.place = some (.file n)) :
      Act root may i σ σ.shared (((σ.loc i).withFd n).goto (.fstat c n))
  /-- `ENOENT` -/
  | openMissing (c : Call) (hpc : (σ.loc i).pc = .open c) (hnone : σ.shared.entries c.place = none) :
      Act root may i σ σ.shared ((σ.loc i).goto (.mkstemp c))
  | openFails (c : Call) (code : ℕ) (hpc : (σ.loc i).pc = .open c) (hcode : code ≠ enoent) :
      Act root may i σ σ.shared ((σ.loc i).fails code)
  | fstats (c : Call) (n : ℕ) (hpc : (σ.loc i).pc = .fstat c n) :
      Act root may i σ σ.shared ((σ.loc i).goto (.mmap c n (σ.shared.inodes n)))
  | fstatFails (c : Call) (n code : ℕ) (hpc : (σ.loc i).pc = .fstat c n) (hcode : code ≠ enoent) :
      Act root may i σ σ.shared (((σ.loc i).close n).fails code)
  /-- `mmap` fails if the size is 0. -/
  | mmaps (c : Call) (n : ℕ) (stat : Inode) (hpc : (σ.loc i).pc = .mmap c n stat) (hsize : stat.size ≠ 0) :
      Act root may i σ σ.shared (((σ.loc i).withMapping n).opened ⟨c.filepath, n, stat, c.opts.arenaMode⟩)
  | mmapFails (c : Call) (n : ℕ) (stat : Inode) (code : ℕ) (hpc : (σ.loc i).pc = .mmap c n stat) :
      Act root may i σ σ.shared (((σ.loc i).close n).fails code)
  /-- The file is made with the mode `0600`. -/
  | mkstemps (c : Call) (x : TmpLetters) (t : CString) (hpc : (σ.loc i).pc = .mkstemp c)
      (hpath : IsTmpPath (dirname c.filepath) x t) (hnone : σ.shared.entries (locate t) = none) :
      Act root may i σ (σ.shared.create i (locate t) ⟨0, 0o600⟩)
        (((σ.loc i).withFd σ.shared.count).goto (.fchmod c t σ.shared.count))
  | mkstempFails (c : Call) (code : ℕ) (hpc : (σ.loc i).pc = .mkstemp c) :
      Act root may i σ σ.shared ((σ.loc i).fails code)
  | fchmods (c : Call) (t : CString) (n : ℕ) (hpc : (σ.loc i).pc = .fchmod c t n) :
      Act root may i σ (σ.shared.change n { σ.shared.inodes n with mode := c.opts.createOptions.mode &&& 0o7777 })
        ((σ.loc i).goto (.ftruncate c t n))
  | ftruncates (c : Call) (t : CString) (n : ℕ) (hpc : (σ.loc i).pc = .ftruncate c t n)
      (hsize : 0 ≤ c.opts.createOptions.size) :
      Act root may i σ (σ.shared.change n { σ.shared.inodes n with size := c.opts.createOptions.size.toNat })
        ((σ.loc i).goto (.tmpFstat c t n))
  | tmpFstats (c : Call) (t : CString) (n : ℕ) (hpc : (σ.loc i).pc = .tmpFstat c t n) :
      Act root may i σ σ.shared ((σ.loc i).goto (.tmpMmap c t n (σ.shared.inodes n)))
  /-- The temporary file stays. -/
  | mktmpFails (c : Call) (t : CString) (n code : ℕ)
      (hpc : (σ.loc i).pc = .fchmod c t n ∨ (σ.loc i).pc = .ftruncate c t n ∨ (σ.loc i).pc = .tmpFstat c t n) :
      Act root may i σ (σ.shared.abandon (locate t) n) (((σ.loc i).close n).fails code)
  | tmpMmaps (c : Call) (t : CString) (n : ℕ) (stat : Inode) (hpc : (σ.loc i).pc = .tmpMmap c t n stat)
      (hsize : stat.size ≠ 0) :
      Act root may i σ σ.shared (((σ.loc i).withMapping n).goto (.link c t n stat))
  /-- The temporary file stays. -/
  | tmpMmapFails (c : Call) (t : CString) (n : ℕ) (stat : Inode) (code : ℕ)
      (hpc : (σ.loc i).pc = .tmpMmap c t n stat) :
      Act root may i σ (σ.shared.abandon (locate t) n) (((σ.loc i).close n).fails code)
  | links (c : Call) (t : CString) (n : ℕ) (stat : Inode) (hpc : (σ.loc i).pc = .link c t n stat)
      (hnone : σ.shared.entries c.place = none) :
      Act root may i σ (σ.shared.link n c.place) ((σ.loc i).goto (.unlink c t n stat none))
  | linkExists (c : Call) (t : CString) (n : ℕ) (stat : Inode) (hpc : (σ.loc i).pc = .link c t n stat)
      (hsome : σ.shared.entries c.place ≠ none) :
      Act root may i σ σ.shared ((σ.loc i).goto (.unlink c t n stat (some eexist)))
  | linkFails (c : Call) (t : CString) (n : ℕ) (stat : Inode) (code : ℕ) (hpc : (σ.loc i).pc = .link c t n stat)
      (hcode : code ≠ eexist) :
      Act root may i σ σ.shared ((σ.loc i).goto (.unlink c t n stat (some code)))
  | unlinks (c : Call) (t : CString) (n : ℕ) (stat : Inode) (err : Option ℕ)
      (hpc : (σ.loc i).pc = .unlink c t n stat err) :
      Act root may i σ (σ.shared.unlink (locate t)) ((σ.loc i).tmpMoved c n stat err)
  /-- Nobody looks at what `unlink` returns. -/
  | unlinkFails (c : Call) (t : CString) (n : ℕ) (stat : Inode) (err : Option ℕ)
      (hpc : (σ.loc i).pc = .unlink c t n stat err) :
      Act root may i σ (σ.shared.abandon (locate t) n) ((σ.loc i).tmpMoved c n stat err)
  | closes (file : File) (hpc : (σ.loc i).pc = .out) (hfile : file ∈ (σ.loc i).files) :
      Act root may i σ σ.shared ((σ.loc i).closeFile file)
  /-- `a0_file_remove`, of a file that is not a temporary one. -/
  | removes (path : Option CString) (filepath : CString) (n : ℕ) (hpc : (σ.loc i).pc = .out)
      (hpath : abspath root path = .ok filepath) (hname : ¬ IsTmp (locate filepath))
      (hfile : σ.shared.entries (locate filepath) = some (.file n)) :
      Act root may i σ (σ.shared.remove (locate filepath)) (σ.loc i)
  | dies (hdraft : (σ.loc i).draft = none) : Act root may i σ σ.shared (σ.loc i).dies
  /-- The temporary file stays. -/
  | diesAmid (x : Draft Place) (hdraft : (σ.loc i).draft = some x) :
      Act root may i σ (σ.shared.abandon x.name x.file) (σ.loc i).dies

/-- The runs: at first there are directories, and nobody has a file. -/
def runs {ι : Type} [DecidableEq ι] (root : CString) (may : ι → Option CString → Options → Prop) :
    TransitionSystem (Threads ι (Shared ι Place Inode) Proc) :=
  Threads.system (fun s loc => s.Initial ∧ ∀ i, loc i = ⟨.out, [], [], [], [], none⟩) (Act root may)

end File

end AlephZero
