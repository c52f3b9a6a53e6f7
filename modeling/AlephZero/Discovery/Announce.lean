import AlephZero.Discovery.Basic
import AlephZero.Map.Exact
import AlephZero.Pathglob.Match

/-!
# What discovery announces

The thread announces a file that is there when it lists a directory, or when its making is
reported. The watch on a directory comes before its listing, so nothing is missed in
between, as long as the thread knows which directories are watched.

## What is proved

* `watchPath_spec`, `announce_spec`, `matchAnnounce_spec` — what the calls do to the maps.
* `Inv.create`, `Inv.remove`, `Inv.watch`, `Inv.openDir`, `Inv.next`, `Inv.done`, `Inv.read`, `Inv.handle` —
  each entry of a watched directory has been handled, is owed by a listing, or is reported,
  whatever happens.
* **`announces_of_reach`** — each file that matches is announced, and only once, as long as no
  directory is made again that has been watched, and none is removed before it is opened.
* `not_announces` — a file in a directory that has been made again is missed.
-/

namespace AlephZero

open DirTree Function

namespace Discovery

variable {env path p root : CString} {glob : Pathglob} {d : Discovery} {tree : DirTree fullpath root UInt32}
  {t : Thread} {w : UInt32 → Option CString} {r a : CString → Option ℕ} {announced : List CString} {new wd : UInt32}

/-! ### The maps -/

theorem exact_u32 : Map.Exact hashU32 cmpU32 := ⟨fun _ => ⟨_, rfl⟩, fun _ _ => ⟨_, rfl⟩, cmpU32_eq_zero⟩

theorem exact_str : Map.Exact hashStr cmpStr := ⟨fun _ => ⟨_, rfl⟩, fun _ _ => ⟨_, rfl⟩, cmpStr_eq_zero⟩

/-- What the three maps hold. -/
structure Tables (d : Discovery) (w : UInt32 → Option CString) (r a : CString → Option ℕ) : Prop where
  watchMap : d.watchMap.Represents hashU32 cmpU32 w
  reverseWatchMap : d.reverseWatchMap.Represents hashStr cmpStr r
  discoveredMap : d.discoveredMap.Represents hashStr cmpStr a

theorem tables_init : Tables (init glob) (fun _ => none) (fun _ => none) fun _ => none :=
  ⟨Map.init_represents, Map.init_represents, Map.init_represents⟩

/-- The system does not add a watch. -/
theorem watchPath_of_not_exists (h : Tables d w r a)
    (hpath : Exists fullpath root tree.nodes path → path.bytes.length < pathMax → r path ≠ none) :
    d.watchPath tree path new = some (d, tree) := by
  rw [watchPath, Map.has_represents exact_str h.reverseWatchMap]
  cases hr : r path with
  | some n => rfl
  | none =>
    simp only [Option.isSome_none]
    split_ifs with hlen
    · rw [addWatch_of_not_exists fun hex => hpath hex hlen hr]
    · rfl

/-- A watch is added. -/
theorem watchPath_of_exists (new : UInt32) (h : Tables d w r a) (hr : r path = none)
    (hex : Exists fullpath root tree.nodes path) (hlen : path.bytes.length < pathMax)
    (hnone : ∀ wd, (wd, path) ∉ tree.watches) :
    ∃ (d' : Discovery) (tree' : DirTree fullpath root UInt32), d.watchPath tree path new = some (d', tree') ∧
      d'.pathglob = d.pathglob ∧ Tables d' (update w new (some path)) (update r path (some 0)) a ∧
      tree'.nodes = tree.nodes ∧ tree'.watches = (new, path) :: tree.watches ∧ tree'.given = new :: tree.given ∧
      tree'.queue = tree.queue := by
  obtain ⟨tree', hadd, htree⟩ := addWatch_of_exists new hex hnone
  obtain ⟨watchMap, hput, hw⟩ := Map.put_represents exact_u32 h.watchMap new path
  obtain ⟨reverseWatchMap, hput', hr'⟩ := Map.put_represents exact_str h.reverseWatchMap path 0
  refine ⟨{ d with watchMap, reverseWatchMap }, tree', ?_, rfl, ⟨hw, hr', h.discoveredMap⟩, htree⟩
  rw [watchPath, Map.has_represents exact_str h.reverseWatchMap, hr]
  simp only [Option.isSome_none, if_pos hlen, hadd, hput, Option.bind_some, hput', Option.map_some]

/-! ### Announcements -/

/-- The path matches the pattern. -/
def Matches (env : CString) (glob : Pathglob) (path : CString) : Prop :=
  ∃ real, Pathglob.init env (some path) = some (.ok real) ∧ Pathglob.PathMatches glob real

/-- What the callback has been called with, and what the map holds. -/
structure Announced (env : CString) (glob : Pathglob) (a : CString → Option ℕ) (announced : List CString) : Prop where
  nodup : announced.Nodup
  matching : ∀ p ∈ announced, Matches env glob p
  mem : ∀ p, p ∈ announced ↔ a p ≠ none

/-- A path that matches is announced, unless it has been. -/
theorem announce_spec (h : Tables d w r a) (ha : Announced env glob a announced) (hm : Matches env glob path) :
    ∃ d' a' called, d.announce path = some (d', called) ∧ d'.pathglob = d.pathglob ∧ Tables d' w r a' ∧
      Announced env glob a' (announced ++ called) ∧ path ∈ announced ++ called := by
  rw [announce, Map.has_represents exact_str h.discoveredMap]
  cases hpath : a path with
  | some n =>
    refine ⟨d, a, [], rfl, rfl, h, ?_, ?_⟩ <;> rw [List.append_nil]
    · exact ha
    · exact (ha.mem path).mpr (by simp [hpath])
  | none =>
    obtain ⟨discoveredMap, hput, hrep⟩ := Map.put_represents exact_str h.discoveredMap path 0
    have hnew : path ∉ announced := fun hmem => (ha.mem path).mp hmem hpath
    refine ⟨{ d with discoveredMap }, update a path (some 0), [path], by simp [hput], rfl,
      ⟨h.watchMap, h.reverseWatchMap, hrep⟩, ⟨?_, ?_, ?_⟩, by simp⟩
    · rw [List.nodup_append]
      refine ⟨ha.nodup, List.nodup_singleton _, ?_⟩
      intro p hp q hq
      obtain rfl := List.mem_singleton.mp hq
      exact fun he => hnew (he ▸ hp)
    · intro p hp
      rcases List.mem_append.mp hp with hp | hp
      · exact ha.matching p hp
      · rwa [List.mem_singleton.mp hp]
    · intro p
      rw [List.mem_append, List.mem_singleton, ha.mem, update_apply]
      split_ifs with hp <;> simp [hp]

/-- After the match of a path, it has been announced if it matches. -/
theorem matchAnnounce_spec {env' : CString} {pattern : Option CString}
    (hglob : Pathglob.init env' pattern = some (.ok glob)) (hd : d.pathglob = glob)
    (h : Tables d w r a) (ha : Announced env glob a announced)
    (hsplit : Pathglob.init env (some path) ≠ none) :
    ∃ d' a' called, d.matchAnnounce env path = some (d', called) ∧ d'.pathglob = glob ∧ Tables d' w r a' ∧
      Announced env glob a' (announced ++ called) ∧ (Matches env glob path → path ∈ announced ++ called) := by
  have hnone : ∀ {b}, d.pathglob.pathMatch env (some path) = some b → b ≠ .ok true → ¬ Matches env glob path →
      ∃ d' a' called, d.matchAnnounce env path = some (d', called) ∧ d'.pathglob = glob ∧ Tables d' w r a' ∧
        Announced env glob a' (announced ++ called) ∧ (Matches env glob path → path ∈ announced ++ called) := by
    intro b hb hne hnot
    refine ⟨d, a, [], ?_, hd, h, by rwa [List.append_nil], fun hm => absurd hm hnot⟩
    rw [matchAnnounce, hb]
    cases b with
    | error e => rfl
    | ok m =>
      cases m with
      | false => rfl
      | true => exact absurd rfl hne
  cases hinit : Pathglob.init env (some path) with
  | none => exact absurd hinit hsplit
  | some res =>
    cases res with
    | error e =>
      refine hnone (b := .error e) (by rw [Pathglob.pathMatch, hinit]) (by simp) ?_
      rintro ⟨real, hreal, -⟩
      rw [hinit] at hreal
      cases hreal
    | ok real =>
      obtain ⟨b, hb, hiff⟩ := Pathglob.pathMatch_iff hglob hinit
      cases b with
      | true =>
        have hm : Matches env glob path := ⟨real, hinit, hiff.mp rfl⟩
        obtain ⟨d', a', called, hcall, hd', htables, hann, hmem⟩ := announce_spec h ha hm
        refine ⟨d', a', called, ?_, hd'.trans hd, htables, hann, fun _ => hmem⟩
        rw [matchAnnounce, hd, hb]
        exact hcall
      | false =>
        refine hnone (b := .ok false) (by rw [hd, hb]) (by simp) ?_
        rintro ⟨real', hreal, hm⟩
        rw [hinit] at hreal
        cases hreal
        exact Bool.noConfusion (hiff.mpr hm)

/-! ### What is not missed -/

/-- The path is not too long for the system, and if it may be matched, it has not too many
components. -/
def Fits (env path : CString) (isDir : Bool) : Prop :=
  path.bytes.length < pathMax ∧ (isDir = false → Pathglob.init env (some path) ≠ none)

/-- An entry is not missed: its directory is about to be listed, its listing owes it, it is
reported, or it has been handled. -/
inductive Covered (env : CString) (glob : Pathglob) (stack : List Frame) (reports : List (Report UInt32 FileName))
    (announced : List CString) (w : UInt32 → Option CString) (r : CString → Option ℕ) (x : Node CString FileName) : Prop
  | opening : .opening x.dir ∈ stack → Covered env glob stack reports announced w r x
  | owed {l : Listing CString FileName} : .listing l ∈ stack → l.dir = x.dir → x.entry ∈ l.owed →
      Covered env glob stack reports announced w r x
  | reported {wd : UInt32} : .created wd x.entry.name (x.entry.kind = .dir) ∈ reports → w wd = some x.dir →
      Covered env glob stack reports announced w r x
  | watched : x.entry.kind = .dir → (r (x.path fullpath) ≠ none ∨ .enter (x.path fullpath) ∈ stack) →
      Covered env glob stack reports announced w r x
  | announced : x.entry.kind = .reg → (Matches env glob (x.path fullpath) → x.path fullpath ∈ announced) →
      Covered env glob stack reports announced w r x
  | other : x.entry.kind = .other → Covered env glob stack reports announced w r x

/-- What holds while no directory is made where one has been watched. -/
structure Inv (env : CString) (glob : Pathglob) (tree : DirTree fullpath root UInt32) (t : Thread)
    (announced : List CString) (w : UInt32 → Option CString) (r a : CString → Option ℕ) : Prop where
  glob_eq : t.d.pathglob = glob
  tables : Tables t.d w r a
  calls : Announced env glob a announced
  given : ∀ wd, w wd ≠ none → wd ∈ tree.given
  watches : ∀ wd p, (wd, p) ∈ tree.watches → w wd = some p ∧ r p ≠ none
  active : ∀ p, IsDir fullpath root tree.nodes p → r p ≠ none → ∃ wd, (wd, p) ∈ tree.watches
  nodes : ∀ x ∈ tree.nodes, Fits env (x.path fullpath) (x.entry.kind = .dir)
  reports : ∀ wd n b, .created wd n b ∈ t.buf ++ tree.queue → ∃ p, w wd = some p ∧ Fits env (fullpath p n) b
  listings : ∀ l, .listing l ∈ t.stack → ∀ e ∈ l.may, Fits env (fullpath l.dir e.name) (e.kind = .dir)
  root : r root ≠ none ∨ .enter root ∈ t.stack
  covered : ∀ x ∈ tree.nodes, r x.dir ≠ none → Covered env glob t.stack (t.buf ++ tree.queue) announced w r x

theorem inv_start : Inv env glob (State.start root glob).tree ⟨init glob, [], [.enter root]⟩ [] (fun _ => none)
    (fun _ => none) fun _ => none where
  glob_eq := rfl
  tables := tables_init
  calls := ⟨List.nodup_nil, by simp, by simp⟩
  given _ h := absurd rfl h
  watches _ _ h := absurd h List.not_mem_nil
  active _ _ h := absurd rfl h
  nodes _ h := absurd h List.not_mem_nil
  reports _ _ _ h := absurd h List.not_mem_nil
  listings l h := by simp at h
  root := .inr List.mem_cons_self
  covered _ h := absurd h List.not_mem_nil

/-! ### Changes of the tree -/

section Listings

variable {f : Listing CString FileName → Listing CString FileName}

theorem enter_mem_mapListings : .enter p ∈ (t.mapListings f).stack ↔ .enter p ∈ t.stack := by
  simp only [Thread.mapListings, List.mem_map]
  constructor
  · rintro ⟨frame, hframe, he⟩
    cases frame <;> cases he
    exact hframe
  · exact fun h => ⟨_, h, rfl⟩

theorem opening_mem_mapListings : .opening p ∈ (t.mapListings f).stack ↔ .opening p ∈ t.stack := by
  simp only [Thread.mapListings, List.mem_map]
  constructor
  · rintro ⟨frame, hframe, he⟩
    cases frame <;> cases he
    exact hframe
  · exact fun h => ⟨_, h, rfl⟩

theorem listing_mem_mapListings {l : Listing CString FileName} :
    .listing l ∈ (t.mapListings f).stack ↔ ∃ l₀, .listing l₀ ∈ t.stack ∧ f l₀ = l := by
  simp only [Thread.mapListings, List.mem_map]
  constructor
  · rintro ⟨frame, hframe, he⟩
    cases frame <;> cases he
    exact ⟨_, hframe, rfl⟩
  · rintro ⟨l₀, h, rfl⟩
    exact ⟨_, h, rfl⟩

end Listings

/-- An entry is made. -/
theorem Inv.create {dir : CString} {e : Dirent FileName} (h : Inv env glob tree t announced w r a)
    (hdir : IsDir fullpath root tree.nodes dir) (hnew : ¬ Exists fullpath root tree.nodes (fullpath dir e.name))
    (hfits : Fits env (fullpath dir e.name) (e.kind = .dir))
    (hnever : e.kind = .dir → r (fullpath dir e.name) = none) :
    Inv env glob (tree.create dir e hdir hnew) (t.mapListings (Listing.create dir e)) announced w r a where
  glob_eq := h.glob_eq
  tables := h.tables
  calls := h.calls
  given := h.given
  watches := h.watches
  active p hp hr := by
    rcases isDir_create.mp hp with hp | ⟨hk, rfl⟩
    · exact h.active p hp hr
    · exact absurd (hnever hk) hr
  nodes x hx := by
    rcases List.mem_cons.mp hx with rfl | hx
    · exact hfits
    · exact h.nodes x hx
  reports wd n b hev := by
    rcases List.mem_append.mp hev with hev | hev
    · exact h.reports wd n b (List.mem_append_left _ hev)
    · rcases mem_queue_create hev with hev | ⟨wd', hw, he⟩
      · exact h.reports wd n b (List.mem_append_right _ hev)
      · cases he
        exact ⟨dir, (h.watches _ _ hw).1, hfits⟩
  listings l hl e' he' := by
    obtain ⟨l₀, hl₀, rfl⟩ := listing_mem_mapListings.mp hl
    rw [Listing.create_dir]
    rcases Listing.mem_create_may he' with he' | ⟨rfl, rfl⟩
    · exact h.listings l₀ hl₀ e' he'
    · exact hfits
  root := h.root.imp_right enter_mem_mapListings.mpr
  covered x hx hr := by
    have hqueue : ∀ {ev}, ev ∈ t.buf ++ tree.queue → ev ∈ t.buf ++ (tree.create dir e hdir hnew).queue := by
      intro ev hev
      refine (List.mem_append.mp hev).elim (fun hev => List.mem_append_left _ hev) fun hev => ?_
      exact List.mem_append_right _ (List.mem_append_left _ hev)
    rcases List.mem_cons.mp hx with rfl | hx
    · -- the directory is watched, so the entry is reported
      obtain ⟨wd, hwd⟩ := h.active dir hdir hr
      exact .reported (List.mem_append_right _ (reported_create hwd)) (h.watches wd dir hwd).1
    · cases h.covered x hx hr with
      | opening ho => exact .opening (opening_mem_mapListings.mpr ho)
      | owed hl hd he =>
        exact .owed (listing_mem_mapListings.mpr ⟨_, hl, rfl⟩) (Listing.create_dir.trans hd)
          (by rwa [Listing.create_owed])
      | reported hev hw => exact .reported (hqueue hev) hw
      | watched hk hw => exact .watched hk (hw.imp_right enter_mem_mapListings.mpr)
      | announced hk hm => exact .announced hk hm
      | other hk => exact .other hk

/-- An entry is removed. -/
theorem Inv.remove {x : Node CString FileName} (h : Inv env glob tree t announced w r a) (hx : x ∈ tree.nodes)
    (hempty : ∀ y ∈ tree.nodes, y.dir ≠ x.path fullpath) :
    Inv env glob (tree.remove x hx hempty) (t.mapListings (Listing.remove fullpath x)) announced w r a where
  glob_eq := h.glob_eq
  tables := h.tables
  calls := h.calls
  given := h.given
  watches wd p hw := h.watches wd p (mem_watches_remove.mp hw).1
  active p hp hr := by
    obtain ⟨hp, hne⟩ := isDir_remove.mp hp
    obtain ⟨wd, hw⟩ := h.active p hp hr
    exact ⟨wd, mem_watches_remove.mpr ⟨hw, hne⟩⟩
  nodes y hy := h.nodes y (mem_remove.mp hy).1
  reports wd n b hev := by
    refine h.reports wd n b ?_
    rw [List.mem_append] at hev ⊢
    exact hev.imp_right created_mem_queue_remove.mp
  listings l hl e he := by
    obtain ⟨l₀, hl₀, rfl⟩ := listing_mem_mapListings.mp hl
    exact h.listings l₀ hl₀ e he
  root := h.root.imp_right enter_mem_mapListings.mpr
  covered y hy hr := by
    obtain ⟨hy, hne⟩ := mem_remove.mp hy
    cases h.covered y hy hr with
    | opening ho => exact .opening (opening_mem_mapListings.mpr ho)
    | owed hl hd he => exact .owed (listing_mem_mapListings.mpr ⟨_, hl, rfl⟩) hd (Listing.mem_remove_owed he hd hne)
    | reported hev hw =>
      rw [List.mem_append] at hev
      exact .reported (List.mem_append.mpr (hev.imp_right created_mem_queue_remove.mpr)) hw
    | watched hk hw => exact .watched hk (hw.imp_right enter_mem_mapListings.mpr)
    | announced hk hm => exact .announced hk hm
    | other hk => exact .other hk

/-! ### Steps of the thread -/

/-- The thread goes on, and nothing is missed. -/
def Kept (env : CString) (glob : Pathglob) (announced : List CString) (o : Outcome root) : Prop :=
  ∃ t' tree' called w' r' a', o = some (t', tree', called) ∧ Inv env glob tree' t' (announced ++ called) w' r' a'

variable {rest : List Frame}

/-- A directory has got a watch. -/
theorem Inv.watch_added (h : Inv env glob tree t announced w r a) (hstack : t.stack = .enter path :: rest)
    (hnew : new ∉ tree.given) (hex : Exists fullpath root tree.nodes path) (hlen : path.bytes.length < pathMax)
    (hr : r path = none) : Kept env glob announced (t.watch tree path rest new) := by
  have hrest : ∀ {f : Frame}, f ∈ t.stack → f = .enter path ∨ f ∈ rest := by
    intro f hf
    rwa [hstack, List.mem_cons] at hf
  have hnone : ∀ wd, (wd, path) ∉ tree.watches := fun wd hw => (h.watches wd path hw).2 hr
  obtain ⟨d', tree', hwatch, hd, htables, hnodes, hwatches, hgiven, hqueue⟩ :=
    watchPath_of_exists new h.tables hr hex hlen hnone
  have hwnew : w new = none := by
    by_contra hne
    exact hnew (h.given new hne)
  have hw : ∀ {wd p}, w wd = some p → update w new (some path) wd = some p := by
    intro wd p hwd
    rw [update_of_ne, hwd]
    rintro rfl
    cases hwnew.symm.trans hwd
  have hself : update r path (some 0) path ≠ none := by
    rw [update_self]
    exact Option.some_ne_none 0
  have hrne : ∀ {p}, r p ≠ none → update r path (some 0) p ≠ none := by
    intro p hp
    by_cases he : p = path
    · exact he ▸ hself
    · rwa [update_of_ne he]
  have henter : ∀ {p}, r p ≠ none ∨ .enter p ∈ t.stack →
      update r path (some 0) p ≠ none ∨ .enter p ∈ .opening path :: rest := by
    rintro p (hp | hp)
    · exact .inl (hrne hp)
    · rcases hrest hp with he | hp
      · cases he
        exact .inl hself
      · exact .inr (List.mem_cons_of_mem _ hp)
  refine ⟨{ t with d := d', stack := .opening path :: rest }, tree', [], update w new (some path),
    update r path (some 0), a, ?_, ?_⟩
  · rw [Thread.watch, hwatch]
    rfl
  rw [List.append_nil]
  refine ⟨hd.trans h.glob_eq, htables, h.calls, ?_, ?_, ?_, ?_, ?_, ?_, henter h.root, ?_⟩
  · intro wd hwd
    rw [hgiven, List.mem_cons]
    by_cases he : wd = new
    · exact .inl he
    · rw [update_of_ne he] at hwd
      exact .inr (h.given wd hwd)
  · intro wd p hmem
    rw [hwatches, List.mem_cons, Prod.mk.injEq] at hmem
    rcases hmem with ⟨rfl, rfl⟩ | hmem
    · exact ⟨update_self .., hself⟩
    · obtain ⟨hwd, hp⟩ := h.watches wd p hmem
      exact ⟨hw hwd, hrne hp⟩
  · intro p hp hrp
    rw [hnodes] at hp
    rw [hwatches]
    by_cases he : p = path
    · exact ⟨new, he ▸ List.mem_cons_self⟩
    · rw [update_of_ne he] at hrp
      obtain ⟨wd, hwd⟩ := h.active p hp hrp
      exact ⟨wd, List.mem_cons_of_mem _ hwd⟩
  · rw [hnodes]
    exact h.nodes
  · intro wd n b hev
    rw [hqueue] at hev
    obtain ⟨p, hp, hfits⟩ := h.reports wd n b hev
    exact ⟨p, hw hp, hfits⟩
  · intro l hl
    rcases List.mem_cons.mp hl with he | hl
    · cases he
    · exact h.listings l (hstack ▸ List.mem_cons_of_mem _ hl)
  · intro x hx hrx
    rw [hnodes] at hx
    rw [hqueue]
    by_cases he : x.dir = path
    · exact .opening (he ▸ List.mem_cons_self)
    · rw [update_of_ne he] at hrx
      cases h.covered x hx hrx with
      | opening ho => exact .opening (List.mem_cons_of_mem _ ((hrest ho).resolve_left (by simp)))
      | owed hl hdir hmem => exact .owed (List.mem_cons_of_mem _ ((hrest hl).resolve_left (by simp))) hdir hmem
      | reported hev hwd => exact .reported hev (hw hwd)
      | watched hk hwx => exact .watched hk (henter hwx)
      | announced hk hm => exact .announced hk hm
      | other hk => exact .other hk

/-- A directory has a watch, or it is gone. -/
theorem Inv.watch_kept (h : Inv env glob tree t announced w r a) (hroot : root.bytes.length < pathMax)
    (hstack : t.stack = .enter path :: rest)
    (hpath : Exists fullpath root tree.nodes path → path.bytes.length < pathMax → r path ≠ none) :
    Kept env glob announced (t.watch tree path rest new) := by
  have hrest : ∀ {f : Frame}, f ∈ t.stack → f = .enter path ∨ f ∈ rest := by
    intro f hf
    rwa [hstack, List.mem_cons] at hf
  have henter : ∀ {p}, (Exists fullpath root tree.nodes p ∧ p.bytes.length < pathMax) →
      (r p ≠ none ∨ .enter p ∈ t.stack) → r p ≠ none ∨ .enter p ∈ .opening path :: rest := by
    rintro p ⟨hex, hlen⟩ (hp | hp)
    · exact .inl hp
    · rcases hrest hp with he | hp
      · cases he
        exact .inl (hpath hex hlen)
      · exact .inr (List.mem_cons_of_mem _ hp)
  refine ⟨{ t with stack := .opening path :: rest }, tree, [], w, r, a, ?_, ?_⟩
  · rw [Thread.watch, watchPath_of_not_exists h.tables hpath]
    rfl
  rw [List.append_nil]
  refine { h with listings := ?_, root := henter ⟨.inl rfl, hroot⟩ h.root, covered := ?_ }
  · intro l hl
    rcases List.mem_cons.mp hl with he | hl
    · cases he
    · exact h.listings l (hstack ▸ List.mem_cons_of_mem _ hl)
  · intro x hx hr
    cases h.covered x hx hr with
    | opening ho => exact .opening (List.mem_cons_of_mem _ ((hrest ho).resolve_left (by simp)))
    | owed hl hdir hmem => exact .owed (List.mem_cons_of_mem _ ((hrest hl).resolve_left (by simp))) hdir hmem
    | reported hev hwd => exact .reported hev hwd
    | watched hk hwx => exact .watched hk (henter ⟨exists_of_mem hx, (h.nodes x hx).1⟩ hwx)
    | announced hk hm => exact .announced hk hm
    | other hk => exact .other hk

theorem Inv.watch (h : Inv env glob tree t announced w r a) (hroot : root.bytes.length < pathMax)
    (hstack : t.stack = .enter path :: rest) (hnew : new ∉ tree.given) :
    Kept env glob announced (t.watch tree path rest new) := by
  by_cases hadd : Exists fullpath root tree.nodes path ∧ path.bytes.length < pathMax ∧ r path = none
  · obtain ⟨hex, hlen, hr⟩ := hadd
    exact h.watch_added hstack hnew hex hlen hr
  · exact h.watch_kept hroot hstack fun hex hlen hr => hadd ⟨hex, hlen, hr⟩

/-- A directory is opened, and its listing owes what is in it. -/
theorem Inv.openDir (h : Inv env glob tree t announced w r a) (hroot : root.bytes.length < pathMax)
    (hstack : t.stack = .opening path :: rest) (hdir : IsDir fullpath root tree.nodes path) :
    Kept env glob announced (t.openDir tree path rest) := by
  have hrest : ∀ {f : Frame}, f ∈ t.stack → f = .opening path ∨ f ∈ rest := by
    intro f hf
    rwa [hstack, List.mem_cons] at hf
  have hlen : path.bytes.length < pathMax := by
    obtain rfl | ⟨x, hx, -, rfl⟩ := hdir
    · exact hroot
    · exact (h.nodes x hx).1
  refine ⟨{ t with stack := .listing (.start tree path) :: rest }, tree, [], w, r, a, ?_, ?_⟩
  · rw [Thread.openDir, fileIterInit, if_pos ⟨hlen, hdir⟩]
    rfl
  rw [List.append_nil]
  have henter : ∀ {p}, (r p ≠ none ∨ .enter p ∈ t.stack) →
      r p ≠ none ∨ .enter p ∈ .listing (.start tree path) :: rest := by
    intro p hp
    exact hp.imp_right fun hp => List.mem_cons_of_mem _ ((hrest hp).resolve_left (by simp))
  refine { h with listings := ?_, root := henter h.root, covered := ?_ }
  · intro l hl e he
    rcases List.mem_cons.mp hl with hl | hl
    · cases hl
      obtain ⟨x, hx, hdir, rfl⟩ := mem_entries_iff.mp he
      exact hdir ▸ h.nodes x hx
    · exact h.listings l (hstack ▸ List.mem_cons_of_mem _ hl) e he
  · intro x hx hr
    cases h.covered x hx hr with
    | opening ho =>
      rcases hrest ho with he | ho
      · cases he
        exact .owed List.mem_cons_self rfl (mem_entries_iff.mpr ⟨x, hx, rfl, rfl⟩)
      · exact .opening (List.mem_cons_of_mem _ ho)
    | owed hl hdir hmem => exact .owed (List.mem_cons_of_mem _ ((hrest hl).resolve_left (by simp))) hdir hmem
    | reported hev hwd => exact .reported hev hwd
    | watched hk hwx => exact .watched hk (henter hwx)
    | announced hk hm => exact .announced hk hm
    | other hk => exact .other hk

/-- The listing has given an entry, and it has been handled. -/
theorem Covered.next {l : Listing CString FileName} {e : Dirent FileName} {stack : List Frame}
    {reports : List (Report UInt32 FileName)} {called : List CString} {x : Node CString FileName}
    (h : Covered env glob (.listing l :: rest) reports announced w r x)
    (hstack : ∀ f ∈ .listing (l.give e) :: rest, f ∈ stack)
    (hgiven : l.dir = x.dir → x.entry = e → Covered env glob stack reports (announced ++ called) w r x) :
    Covered env glob stack reports (announced ++ called) w r x := by
  have hrest : ∀ {f : Frame}, f ∈ .listing l :: rest → f ≠ .listing l → f ∈ stack :=
    fun hf hne => hstack _ (List.mem_cons_of_mem _ ((List.mem_cons.mp hf).resolve_left hne))
  cases h with
  | opening ho => exact .opening (hrest ho (by simp))
  | owed hl hdir hmem =>
    rcases List.mem_cons.mp hl with he | hl
    · cases he
      by_cases hxe : x.entry = e
      · exact hgiven hdir hxe
      · exact .owed (hstack _ List.mem_cons_self) hdir ((List.mem_erase_of_ne hxe).mpr hmem)
    · exact .owed (hstack _ (List.mem_cons_of_mem _ hl)) hdir hmem
  | reported hev hwd => exact .reported hev hwd
  | watched hk hwx => exact .watched hk (hwx.imp_right fun hwx => hrest hwx (by simp))
  | announced hk hm => exact .announced hk fun hmatch => List.mem_append_left _ (hm hmatch)
  | other hk => exact .other hk

/-- A listing gives an entry. -/
theorem Inv.next {l : Listing CString FileName} {e : Dirent FileName} {env' : CString} {pattern : Option CString}
    (hglob : Pathglob.init env' pattern = some (.ok glob)) (h : Inv env glob tree t announced w r a)
    (hstack : t.stack = .listing l :: rest) (he : e ∈ l.may) :
    Kept env glob announced (t.next env tree l rest e) := by
  have hfits := h.listings l (hstack ▸ List.mem_cons_self) e he
  have hrest : ∀ {f : Frame}, f ∈ t.stack → f ≠ .listing l → f ∈ .listing (l.give e) :: rest := by
    intro f hf hne
    rw [hstack, List.mem_cons] at hf
    exact List.mem_cons_of_mem _ (hf.resolve_left hne)
  have hlistings : ∀ l', .listing l' ∈ .listing (l.give e) :: rest → ∀ e' ∈ l'.may,
      Fits env (fullpath l'.dir e'.name) (e'.kind = .dir) := by
    intro l' hl e' he'
    rcases List.mem_cons.mp hl with hl | hl
    · cases hl
      exact h.listings l (hstack ▸ List.mem_cons_self) e' (List.mem_of_mem_erase he')
    · exact h.listings l' (hstack ▸ List.mem_cons_of_mem _ hl) e' he'
  have hroot : r root ≠ none ∨ .enter root ∈ .listing (l.give e) :: rest :=
    h.root.imp_right fun hr => hrest hr (by simp)
  have hcovered : ∀ x ∈ tree.nodes, r x.dir ≠ none →
      Covered env glob (.listing l :: rest) (t.buf ++ tree.queue) announced w r x := by
    rw [← hstack]
    exact h.covered
  rw [Thread.next, if_neg (by have := hfits.1; omega)]
  cases hk : e.kind with
  | dir =>
    refine ⟨{ t with stack := .enter (fullpath l.dir e.name) :: .listing (l.give e) :: rest }, tree, [], w, r, a, rfl,
      ?_⟩
    rw [List.append_nil]
    refine { h with listings := ?_, root := hroot.imp_right fun hr => List.mem_cons_of_mem _ hr, covered := ?_ }
    · intro l' hl
      exact hlistings l' ((List.mem_cons.mp hl).resolve_left (by simp))
    · intro x hx hr
      rw [← List.append_nil announced]
      refine (hcovered x hx hr).next (fun f hf => List.mem_cons_of_mem _ hf) fun hdir hxe => ?_
      refine .watched (hxe ▸ hk) (.inr ?_)
      rw [Node.path, ← hdir, hxe]
      exact List.mem_cons_self
  | reg =>
    obtain ⟨d', a', called, hcall, hd, htables, hcalls, hmem⟩ :=
      matchAnnounce_spec hglob h.glob_eq h.tables h.calls (hfits.2 (by simp [hk]))
    refine ⟨{ t with d := d', stack := .listing (l.give e) :: rest }, tree, called, w, r, a', ?_, ?_⟩
    · simp only [hcall, Option.map_some]
    refine ⟨hd, htables, hcalls, h.given, h.watches, h.active, h.nodes, h.reports, hlistings, hroot, ?_⟩
    intro x hx hr
    refine (hcovered x hx hr).next (fun f hf => hf) fun hdir hxe => ?_
    refine .announced (hxe ▸ hk) ?_
    rw [Node.path, ← hdir, hxe]
    exact hmem
  | other =>
    refine ⟨{ t with stack := .listing (l.give e) :: rest }, tree, [], w, r, a, rfl, ?_⟩
    rw [List.append_nil]
    refine { h with listings := hlistings, root := hroot, covered := ?_ }
    intro x hx hr
    rw [← List.append_nil announced]
    exact (hcovered x hx hr).next (fun f hf => hf) fun _ hxe => .other (hxe ▸ hk)

/-- A listing ends when it owes nothing. -/
theorem Inv.done {l : Listing CString FileName} (h : Inv env glob tree t announced w r a)
    (hstack : t.stack = .listing l :: rest) (howed : l.owed = []) :
    Kept env glob announced (some ({ t with stack := rest }, tree, [])) := by
  have hrest : ∀ {f : Frame}, f ∈ t.stack → f ≠ .listing l → f ∈ rest := by
    intro f hf hne
    rw [hstack, List.mem_cons] at hf
    exact hf.resolve_left hne
  refine ⟨{ t with stack := rest }, tree, [], w, r, a, rfl, ?_⟩
  rw [List.append_nil]
  refine { h with listings := ?_, root := h.root.imp_right fun hr => hrest hr (by simp), covered := ?_ }
  · intro l' hl
    exact h.listings l' (hstack ▸ List.mem_cons_of_mem _ hl)
  · intro x hx hr
    cases h.covered x hx hr with
    | opening ho => exact .opening (hrest ho (by simp))
    | owed hl hdir hmem =>
      refine .owed (hrest hl ?_) hdir hmem
      rintro he
      cases he
      rw [howed] at hmem
      cases hmem
    | reported hev hwd => exact .reported hev hwd
    | watched hk hwx => exact .watched hk (hwx.imp_right fun hwx => hrest hwx (by simp))
    | announced hk hm => exact .announced hk hm
    | other hk => exact .other hk

/-- The thread reads some of the reports. -/
theorem Inv.read {n : ℕ} (h : Inv env glob tree t announced w r a) (hbuf : t.buf = []) :
    Kept env glob announced (some ({ t with buf := tree.queue.take n }, tree.read n, [])) := by
  have hsame : tree.queue.take n ++ (tree.read n).queue = t.buf ++ tree.queue := by
    rw [hbuf, DirTree.read, List.take_append_drop, List.nil_append]
  refine ⟨_, _, _, w, r, a, rfl, ?_⟩
  rw [List.append_nil]
  refine ⟨h.glob_eq, h.tables, h.calls, h.given, h.watches, h.active, h.nodes, ?_, h.listings, h.root, ?_⟩
  · simp only [hsame]
    exact h.reports
  · simp only [hsame]
    exact h.covered

/-- The thread handles a report. -/
theorem Inv.handle {ev : Report UInt32 FileName} {buf : List (Report UInt32 FileName)} {env' : CString}
    {pattern : Option CString} (hglob : Pathglob.init env' pattern = some (.ok glob))
    (h : Inv env glob tree t announced w r a) (hstack : t.stack = []) (hbuf : t.buf = ev :: buf) :
    Kept env glob announced (t.handle env tree buf ev) := by
  have hreports : ∀ wd n b, .created wd n b ∈ buf ++ tree.queue →
      ∃ p, w wd = some p ∧ Fits env (fullpath p n) b := by
    intro wd n b hev
    refine h.reports wd n b ?_
    rw [hbuf]
    exact List.mem_cons_of_mem _ hev
  have hroot : r root ≠ none := h.root.resolve_right (by simp [hstack])
  -- what the report is not about stays covered
  have hcovered : ∀ {stack called} {x : Node CString FileName}, x ∈ tree.nodes → r x.dir ≠ none →
      (∀ wd, ev = .created wd x.entry.name (x.entry.kind = .dir) → w wd = some x.dir →
        Covered env glob stack (buf ++ tree.queue) (announced ++ called) w r x) →
      Covered env glob stack (buf ++ tree.queue) (announced ++ called) w r x := by
    intro stack called x hx hr hhandled
    cases h.covered x hx hr with
    | opening ho => simp [hstack] at ho
    | owed hl hdir hmem => simp [hstack] at hl
    | reported hev hwd =>
      rw [hbuf, List.cons_append] at hev
      rcases List.mem_cons.mp hev with hev | hev
      · exact hhandled _ hev.symm hwd
      · exact .reported hev hwd
    | watched hk hwx => exact .watched hk (.inl (hwx.resolve_right (by simp [hstack])))
    | announced hk hm => exact .announced hk fun hmatch => List.mem_append_left _ (hm hmatch)
    | other hk => exact .other hk
  cases ev with
  | ignored wd =>
    refine ⟨{ t with buf := buf }, tree, [], w, r, a, rfl, ?_⟩
    rw [List.append_nil]
    refine { h with reports := hreports, covered := ?_ }
    intro x hx hr
    rw [← List.append_nil announced]
    exact hcovered hx hr fun wd he => by cases he
  | created wd n isDir =>
    obtain ⟨parent, hwd, hfits⟩ := h.reports wd n isDir (by rw [hbuf]; exact List.mem_cons_self)
    have hget : t.d.watchMap.get wd = some (.ok parent) := by
      rw [Map.get_represents exact_u32 h.tables.watchMap, hwd]
      rfl
    rw [Thread.handle]
    simp only [hget]
    split_ifs with hdir
    · refine ⟨{ t with buf := buf, stack := [.enter (fullpath parent n)] }, tree, [], w, r, a, rfl, ?_⟩
      rw [List.append_nil]
      refine { h with reports := hreports, listings := ?_, root := .inl hroot, covered := ?_ }
      · intro l hl
        simp at hl
      · intro x hx hr
        rw [← List.append_nil announced]
        refine hcovered hx hr fun wd' he hwd' => ?_
        cases he
        cases hwd.symm.trans hwd'
        exact .watched (of_decide_eq_true hdir) (.inr List.mem_cons_self)
    · obtain ⟨d', a', called, hcall, hd, htables, hcalls, hmem⟩ :=
        matchAnnounce_spec hglob h.glob_eq h.tables h.calls (hfits.2 (by simpa using hdir))
      refine ⟨{ t with d := d', buf := buf }, tree, called, w, r, a', by simp only [hcall, Option.map_some], ?_⟩
      refine ⟨hd, htables, hcalls, h.given, h.watches, h.active, h.nodes, hreports, h.listings, .inl hroot, ?_⟩
      intro x hx hr
      refine hcovered hx hr fun wd' he hwd' => ?_
      cases he
      cases hwd.symm.trans hwd'
      cases hk : x.entry.kind with
      | dir => simp [hk] at hdir
      | reg => exact .announced hk hmem
      | other => exact .other hk

/-! ### Runs -/

/-- What discovery promises. -/
structure Announces (env : CString) (glob : Pathglob) (s : State root) : Prop where
  defined : s.thread ≠ none
  once : s.announced.Nodup
  matching : ∀ p ∈ s.announced, Matches env glob p
  complete : s.Idle → ∀ x ∈ s.tree.nodes, x.entry.kind = .reg → Matches env glob (x.path fullpath) →
    x.path fullpath ∈ s.announced

/-- The directory that the thread is about to open. -/
def State.opens (s : State root) : Option CString :=
  s.thread.bind fun t =>
    match t.stack with
    | .opening path :: _ => some path
    | _ => none

/-- A directory is not made at a path that has been watched, and a path is not too long or
too deep. A directory is there when it is opened. -/
def Spared (env : CString) (s : State root) : Act → Prop
  | .create dir entry => Fits env (fullpath dir entry.name) (entry.kind = .dir) ∧
      (entry.kind = .dir → ∀ t ∈ s.thread, t.d.reverseWatchMap.has (fullpath dir entry.name) ≠ some true)
  | .openDir => ∀ path ∈ s.opens, IsDir fullpath root s.tree.nodes path
  | _ => True

/-- The runs in which each step is spared. -/
def sparing (env root : CString) (glob : Pathglob) : TransitionSystem (State root) where
  init s := s = .start root glob
  step s s' := ∃ a, Spared env s a ∧ s.step env a = some s'

/-- What holds in each state of these runs. -/
def Sound (env : CString) (glob : Pathglob) (s : State root) : Prop :=
  ∃ t w r a, s.thread = some t ∧ Inv env glob s.tree t s.announced w r a

theorem Kept.sound {s : State root} {o : Outcome root} (h : Kept env glob s.announced o) :
    Sound env glob (s.outcome o) := by
  obtain ⟨t', tree', called, w', r', a', rfl, h'⟩ := h
  exact ⟨t', w', r', a', rfl, h'⟩

/-- Whatever the thread does, nothing is missed. -/
theorem Inv.act {env' : CString} {pattern : Option CString} {act : Act} {o : Outcome root}
    (hglob : Pathglob.init env' pattern = some (.ok glob)) (hroot : root.bytes.length < pathMax)
    (h : Inv env glob tree t announced w r a)
    (hspared : act = .openDir → ∀ path rest, t.stack = .opening path :: rest → IsDir fullpath root tree.nodes path)
    (hact : t.act env tree act = some o) : Kept env glob announced o := by
  cases act with
  | create dir entry => exact absurd hact (by simp)
  | remove x => exact absurd hact (by simp)
  | watch new =>
    obtain ⟨path, rest, hstack, hnew, rfl⟩ := Thread.act_watch hact
    exact h.watch hroot hstack hnew
  | openDir =>
    obtain ⟨path, rest, hstack, rfl⟩ := Thread.act_openDir hact
    exact h.openDir hroot hstack (hspared rfl path rest hstack)
  | next entry =>
    obtain ⟨l, rest, hstack, hmay, rfl⟩ := Thread.act_next hact
    exact h.next hglob hstack hmay
  | done =>
    obtain ⟨l, rest, hstack, howed, rfl⟩ := Thread.act_done hact
    exact h.done hstack howed
  | read n =>
    obtain ⟨hbuf, rfl⟩ := Thread.act_read hact
    exact h.read hbuf
  | handle =>
    obtain ⟨ev, buf, hstack, hbuf, rfl⟩ := Thread.act_handle hact
    exact h.handle hglob hstack hbuf

theorem Sound.step {env' : CString} {pattern : Option CString} {s s' : State root} {act : Act}
    (hglob : Pathglob.init env' pattern = some (.ok glob)) (hroot : root.bytes.length < pathMax)
    (h : Sound env glob s) (hspared : Spared env s act) (hstep : s.step env act = some s') : Sound env glob s' := by
  obtain ⟨t, w, r, a, ht, h⟩ := h
  have hthread : s.step env act = (s.thread.bind fun t => t.act env s.tree act).map s.outcome → Sound env glob s' := by
    intro heq
    rw [heq, ht, Option.bind_some] at hstep
    obtain ⟨o, hact, rfl⟩ := Option.map_eq_some_iff.mp hstep
    refine (h.act hglob hroot ?_ hact).sound
    rintro rfl path rest hstack
    refine hspared path ?_
    rw [State.opens, ht, Option.bind_some, hstack]
    rfl
  cases act with
  | create dir entry =>
    rw [State.step] at hstep
    split_ifs at hstep with hnew
    cases hstep
    refine ⟨t.mapListings (Listing.create dir entry), w, r, a, by rw [ht]; rfl, ?_⟩
    refine h.create hnew.1 hnew.2 hspared.1 fun hk => ?_
    have hnever := hspared.2 hk t ht
    rw [Map.has_represents exact_str h.tables.reverseWatchMap] at hnever
    simpa using hnever
  | remove x =>
    rw [State.step] at hstep
    split_ifs at hstep with hx
    cases hstep
    exact ⟨t.mapListings (Listing.remove fullpath x), w, r, a, by rw [ht]; rfl, h.remove hx.1 hx.2⟩
  | watch new => exact hthread rfl
  | openDir => exact hthread rfl
  | next entry => exact hthread rfl
  | done => exact hthread rfl
  | read n => exact hthread rfl
  | handle => exact hthread rfl

/-- When the thread waits, each directory is watched, and each file has been handled. -/
theorem Sound.announces {s : State root} (h : Sound env glob s) : Announces env glob s := by
  obtain ⟨t, w, r, a, ht, h⟩ := h
  refine ⟨by simp [ht], h.calls.nodup, h.calls.matching, ?_⟩
  rintro ⟨hqueue, t', ht', hstack, hbuf⟩ x hx hk hm
  cases ht.symm.trans ht'
  have hreports : t.buf ++ s.tree.queue = [] := by rw [hbuf, hqueue, List.append_nil]
  have hcovered : ∀ y ∈ s.tree.nodes, r y.dir ≠ none → Covered env glob [] [] s.announced w r y := by
    rw [← hreports, ← hstack]
    exact h.covered
  have hdir : ∀ p, IsDir fullpath root s.tree.nodes p → r p ≠ none := by
    intro p hp
    refine dir_induction (Q := fun p => r p ≠ none) s.tree.grown (h.root.resolve_right (by simp [hstack])) ?_ hp
    intro y hy hkind hr
    cases hcovered y hy hr with
    | opening ho => cases ho
    | owed hl hdir hmem => cases hl
    | reported hev hwd => cases hev
    | watched hk' hwx => exact hwx.resolve_right List.not_mem_nil
    | announced hk' hm' => cases hkind.symm.trans hk'
    | other hk' => cases hkind.symm.trans hk'
  cases hcovered x hx (hdir x.dir (s.tree.grown.isDir_dir hx)) with
  | opening ho => cases ho
  | owed hl hdir' hmem => cases hl
  | reported hev hwd => cases hev
  | watched hk' hwx => cases hk.symm.trans hk'
  | announced hk' hm' => exact hm' hm
  | other hk' => cases hk.symm.trans hk'

/-! ### The root -/

/-- The parts of a path follow each other. -/
theorem initLoop_chain {pathBytes : CString} {rest : List UInt8} {iter recentSlash : ℕ} {hasStar : Bool}
    (h : recentSlash < iter) :
    ∃ part parts, Pathglob.initLoop pathBytes rest iter recentSlash hasStar = part :: parts ∧
      part.str.data = recentSlash + 1 ∧
      (part :: parts).IsChain fun a b => b.str.data = a.str.data + a.str.size + 1 := by
  induction rest generalizing iter recentSlash hasStar with
  | nil => exact ⟨_, [], rfl, rfl, List.isChain_singleton _⟩
  | cons c rest ih =>
    rw [Pathglob.initLoop]
    by_cases hstar : c = 42
    · rw [if_pos hstar]
      exact ih (by omega)
    rw [if_neg hstar]
    by_cases hslash : c = 47
    · obtain ⟨part, parts, hloop, hdata, hchain⟩ := @ih (iter + 1) iter hasStar (Nat.lt_succ_self iter)
      rw [if_pos hslash]
      refine ⟨_, part :: parts, by rw [hloop], rfl, List.isChain_cons_cons.mpr ⟨?_, hchain⟩⟩
      rw [hdata]
      simp only
      omega
    · rw [if_neg hslash]
      exact ih (by omega)

theorem length_rootlenLoop {stat : CString → Bool} (hstat : ∀ p, stat p = true → p.bytes.length < pathMax)
    {part : Part} {parts : List Part}
    (hchain : (part :: parts).IsChain fun a b => b.str.data = a.str.data + a.str.size + 1)
    (hlen : (truncated path part.str.data).bytes.length < pathMax) :
    (truncated path (rootlenLoop path stat (part :: parts))).bytes.length < pathMax := by
  induction parts generalizing part with
  | nil => exact hlen
  | cons next parts ih =>
    rw [rootlenLoop]
    split_ifs with htype hs
    · exact hlen
    · rw [List.isChain_cons_cons] at hchain
      exact ih hchain.2 (hchain.1 ▸ hstat _ hs)
    · exact hlen

/-- The path of the root is not too long for the system, as it is one that the system has found. -/
theorem length_rootPath {pattern : Option CString} {stat : CString → Bool}
    (hstat : ∀ p, stat p = true → p.bytes.length < pathMax) (hglob : Pathglob.init env pattern = some (.ok glob)) :
    (rootPath glob stat).bytes.length < pathMax := by
  cases pattern with
  | none => cases hglob
  | some pattern =>
    rw [Pathglob.init] at hglob
    cases hp : AlephZero.abspath env (some pattern) with
    | error e =>
      rw [hp] at hglob
      cases hglob
    | ok path =>
      rw [hp] at hglob
      simp only at hglob
      split_ifs at hglob with hlen
      cases hglob
      obtain ⟨part, parts, hloop, hdata, hchain⟩ :=
        @initLoop_chain path path.bytes.tail 1 0 false Nat.zero_lt_one
      rw [rootPath, rootlen, hloop]
      refine length_rootlenLoop hstat hchain ?_
      rw [hdata, truncated, List.length_take]
      exact (min_le_left _ _).trans_lt (by decide)

/-- **Discovery announces each matching file once**: whatever is made and removed below the
root while the thread lists directories and handles reports, no path is announced twice,
each one that is announced matches, and each file that matches has been announced when the
thread has nothing to do, as long as no directory is made at a path that has been watched,
none is removed before it is opened, and no path is too long or has too many components. -/
theorem announces_of_reach {pattern : Option CString} {stat : CString → Bool} {s : State (rootPath glob stat)}
    (hstat : ∀ p, stat p = true → p.bytes.length < pathMax) (hglob : Pathglob.init env pattern = some (.ok glob))
    (hs : (sparing env (rootPath glob stat) glob).Reach s) : Announces env glob s := by
  have hroot := length_rootPath hstat hglob
  have hinv : (sparing env (rootPath glob stat) glob).IsInvariant (Sound env glob) := by
    constructor
    · rintro s rfl
      exact ⟨_, _, _, _, rfl, inv_start⟩
    · rintro s s' h ⟨act, hspared, hstep⟩
      exact h.step hglob hroot hspared hstep
  exact (hinv.reach hs).announces

/-! ### Two runs -/

/-- The state that acts lead to, if each of them is allowed. -/
def State.run (ok : State root → Act → Bool) (env : CString) (s : State root) : List Act → Option (State root)
  | [] => some s
  | a :: acts => if ok s a then (s.step env a).bind fun s => s.run ok env acts else none

theorem reach_run {S : TransitionSystem (State root)} {ok : State root → Act → Bool} {s s' : State root}
    {acts : List Act} (hok : ∀ s s' act, ok s act → s.step env act = some s' → S.step s s') (hs : S.Reach s)
    (hrun : s.run ok env acts = some s') : S.Reach s' := by
  induction acts generalizing s with
  | nil =>
    cases hrun
    exact hs
  | cons act acts ih =>
    rw [State.run] at hrun
    split_ifs at hrun with hact
    obtain ⟨s₁, hstep, hrun⟩ := Option.bind_eq_some_iff.mp hrun
    exact ih (.step hs (hok s s₁ act hact hstep)) hrun

instance {isDir : Bool} : Decidable (Fits env path isDir) := inferInstanceAs (Decidable (_ ∧ _))

instance {s : State root} {act : Act} : Decidable (Spared env s act) :=
  match act with
  | .create _ _ => inferInstanceAs (Decidable (_ ∧ _))
  | .openDir => inferInstanceAs (Decidable (∀ path ∈ s.opens, IsDir fullpath root s.tree.nodes path))
  | .remove _ | .watch _ | .next _ | .done | .read _ | .handle => isTrue trivial

/-- The glob of the pattern `/r/*/f`. -/
def exampleGlob : Pathglob :=
  ⟨.ofString "/r/*/f", [⟨⟨1, 1⟩, .verbatim⟩, ⟨⟨3, 1⟩, .pattern⟩, ⟨⟨5, 1⟩, .pattern⟩]⟩

/-- The directory `d` is made in the root, and the thread, which has listed the root, watches
and lists it. -/
def exampleActs : List Act :=
  [.watch 1, .openDir, .done, .create (.ofString "/r/") ⟨.ofString "d" (by decide), .dir⟩, .read 0, .handle,
    .watch 2, .openDir, .done]

/-- The directories whose paths are short enough are there. -/
def exampleStat (path : CString) : Bool := path.bytes.length < pathMax

/-- A file in a new directory is announced. -/
theorem announces_of_reach_file : ∃ s : State (rootPath exampleGlob exampleStat),
    s.announced = [.ofString "/r/d/f"] ∧ Announces (.ofString "/x") exampleGlob s := by
  have hany : ((State.start (rootPath exampleGlob exampleStat) exampleGlob).run
      (fun s act => Spared (.ofString "/x") s act) (.ofString "/x") (exampleActs ++
        [.create (.ofString "/r/d") ⟨.ofString "f" (by decide), .reg⟩, .read 0, .handle])).any
      (fun s => s.announced = [.ofString "/r/d/f"]) = true := by
    decide +kernel
  obtain ⟨s, hrun, hann⟩ := (Option.any_eq_true _ _).mp hany
  have hreach : (sparing (.ofString "/x") (rootPath exampleGlob exampleStat) exampleGlob).Reach s :=
    reach_run (fun s s' act hok hstep => ⟨act, of_decide_eq_true hok, hstep⟩) (.init rfl) hrun
  have hglob : Pathglob.init (.ofString "/x") (some (.ofString "/r/*/f")) = some (.ok exampleGlob) := rfl
  exact ⟨s, of_decide_eq_true hann, announces_of_reach (fun p hp => of_decide_eq_true hp) hglob hreach⟩

/-- The directory is removed and made again, and a file is made in it. -/
def remadeActs : List Act :=
  [.remove ⟨.ofString "/r/", ⟨.ofString "d" (by decide), .dir⟩⟩,
    .create (.ofString "/r/") ⟨.ofString "d" (by decide), .dir⟩, .read 1, .handle, .handle, .watch 3, .openDir, .done,
    .create (.ofString "/r/d") ⟨.ofString "f" (by decide), .reg⟩]

/-- **A file is missed**: the directory has been removed and made again. Its path is still in
the map of what is watched, but its watch is gone. -/
theorem not_announces : ¬ ∀ (env : CString) (pattern : Option CString) (glob : Pathglob) (stat : CString → Bool)
    (s : State (rootPath glob stat)), (∀ p, stat p = true → p.bytes.length < pathMax) →
      Pathglob.init env pattern = some (.ok glob) → (system env (rootPath glob stat) glob).Reach s →
      Announces env glob s := by
  intro h
  have hany : ((State.start (rootPath exampleGlob exampleStat) exampleGlob).run
      (fun _ _ => true) (.ofString "/x") (exampleActs ++ remadeActs)).any
      (fun s => s.announced = [] ∧ s.tree.queue = [] ∧ (s.thread.any fun t => t.stack = [] ∧ t.buf = []) ∧
        ⟨.ofString "/r/d", ⟨.ofString "f" (by decide), .reg⟩⟩ ∈ s.tree.nodes) = true := by
    decide +kernel
  obtain ⟨s, hrun, hs⟩ := (Option.any_eq_true _ _).mp hany
  obtain ⟨hann, hqueue, hthread, hfile⟩ := of_decide_eq_true hs
  obtain ⟨t, ht, hwait⟩ := (Option.any_eq_true _ _).mp hthread
  have hglob : Pathglob.init (.ofString "/x") (some (.ofString "/r/*/f")) = some (.ok exampleGlob) := rfl
  have hreach : (system (.ofString "/x") (rootPath exampleGlob exampleStat) exampleGlob).Reach s :=
    reach_run (fun s s' act _ hstep => ⟨act, hstep⟩) (.init rfl) hrun
  have hidle : s.Idle := ⟨hqueue, t, ht, of_decide_eq_true hwait⟩
  have hmatch : Matches (.ofString "/x") exampleGlob (.ofString "/r/d/f") := by
    have hpath : Pathglob.init (.ofString "/x") (some (.ofString "/r/d/f")) = some (.ok
        ⟨.ofString "/r/d/f", [⟨⟨1, 1⟩, .verbatim⟩, ⟨⟨3, 1⟩, .verbatim⟩, ⟨⟨5, 1⟩, .verbatim⟩]⟩) := rfl
    obtain ⟨b, hb, hiff⟩ := Pathglob.pathMatch_iff hglob hpath
    have htrue : Pathglob.pathMatch (.ofString "/x") exampleGlob (some (.ofString "/r/d/f")) = some (.ok true) := rfl
    rw [htrue] at hb
    cases hb
    exact ⟨_, hpath, hiff.mp rfl⟩
  have hmem := (h _ _ exampleGlob exampleStat s (fun p hp => of_decide_eq_true hp) hglob hreach).complete hidle _ hfile
    rfl hmatch
  rw [hann] at hmem
  cases hmem

end Discovery

end AlephZero
