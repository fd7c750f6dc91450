import FileSync.Cas.Chunker
import FileSync.Db.Store
import FileSync.Os.Path
import FileSync.Support.Transition

/-!
# Watcher — the watcher, the directory it watches and its events

`internal/watcher/watcher.go` over a directory that other programs change at any time.

* `Fs` has the entries under the watched root.  `Change` is what other programs do, and
  `Change.notices` the events of `fsnotify` for it: one for each entry that is created, written,
  removed or renamed, if the directory it is in is watched.  The watch of a directory ends when the
  directory is removed or moved.
* `handleEvent` is one round of `processEvents`.
* `flushPending` takes the pending paths and goes through them in some order, each by `processFile`,
  while changes go on: `Stage` is where it is with a path, after the file was looked at, after the
  database was asked, after the file was read.
* `step` is one event of the system.
-/

open Transition

namespace FileSync.Watcher

open Db (Time Tables)

/-! ### The directory -/

/-- The name of an entry. -/
abbrev Name := {n : Bytes // Filepath.Plain n}

/-- The names from the root to an entry. -/
abbrev Path := List Name

def Hidden (n : Name) : Prop := n.1.head? = some 46

instance (n : Name) : Decidable (Hidden n) := inferInstanceAs (Decidable (_ = _))

/-- No name of the path is hidden. -/
def Visible (p : Path) : Prop := ∀ n ∈ p, ¬ Hidden n

instance (p : Path) : Decidable (Visible p) := inferInstanceAs (Decidable (∀ n ∈ p, ¬ Hidden n))

/-- The path from the root, as it is kept in the database. -/
def relPath (p : Path) : Bytes := Filepath.relative (p.map Subtype.val)

/-- The content of a file, and when it was written. -/
structure Version where
  content : Bytes
  modTime : Time
deriving DecidableEq

inductive Node
  | dir
  | file (v : Version)
deriving DecidableEq

/-- The entries under the root. -/
abbrev Fs := AList fun _ : Path => Node

namespace Fs

def IsDir (fs : Fs) (p : Path) : Prop := p = [] ∨ fs.lookup p = some .dir

instance (fs : Fs) (p : Path) : Decidable (fs.IsDir p) := inferInstanceAs (Decidable (_ ∨ _))

def isFile (fs : Fs) (p : Path) : Bool :=
  match fs.lookup p with
  | some (.file _) => true
  | _ => false

/-- Nothing is in the directory. -/
def Empty (fs : Fs) (p : Path) : Prop := ∀ e ∈ fs.entries, p <+: e.1 → e.1 = p

instance (fs : Fs) (p : Path) : Decidable (fs.Empty p) :=
  inferInstanceAs (Decidable (∀ e ∈ fs.entries, p <+: e.1 → e.1 = p))

/-- Without the entry and what is below it. -/
def detach (p : Path) (fs : Fs) : Fs :=
  ⟨fs.entries.filter fun e => ¬ p <+: e.1, fs.nodupKeys.sublist List.filter_sublist⟩

/-- The entry and what is below it, by their paths from it. -/
def subtree (p : Path) (fs : Fs) : List (Path × Node) :=
  (fs.entries.filter fun e => p <+: e.1).map fun e => (e.1.drop p.length, e.2)

/-- With `tree` at `q`. -/
def attach (q : Path) (tree : List (Path × Node)) (fs : Fs) : Fs :=
  tree.foldl (fun fs e => fs.insert (q ++ e.1) e.2) fs

/-- `os.Stat` under the root: below a file it fails with `ENOTDIR`. -/
def stat (fs : Fs) (p : Path) : Except Errno Node :=
  match fs.lookup p with
  | some n => .ok n
  | none => if ∃ a ∈ p.inits, fs.isFile a then .error .notDir else .error .notExist

end Fs

/-- An entry with what is below it: each is in a directory of the tree. -/
def IsTree (tree : List (Path × Node)) : Prop :=
  (∃ e ∈ tree, e.1 = []) ∧ ∀ e ∈ tree, e.1 = [] ∨ (e.1.dropLast, Node.dir) ∈ tree

instance (tree : List (Path × Node)) : Decidable (IsTree tree) :=
  inferInstanceAs (Decidable (_ ∧ _))

/-- What other programs do under the root, with moves to and from elsewhere. -/
inductive Change
  | create (p : Path) (v : Version)
  | write (p : Path) (v : Version)
  | mkdir (p : Path)
  | remove (p : Path)
  | rename (p q : Path)
  | moveOut (p : Path)
  | moveIn (q : Path) (tree : List (Path × Node))

inductive Op
  | create
  | write
  | remove
  | rename
deriving DecidableEq

/-- An event of `fsnotify`. -/
structure Notice where
  op : Op
  path : Path
deriving DecidableEq

namespace Change

/-- A new entry can be made at `p`. -/
def Vacant (fs : Fs) (p : Path) : Prop := p ≠ [] ∧ fs.IsDir p.dropLast ∧ fs.lookup p = none

instance (fs : Fs) (p : Path) : Decidable (Vacant fs p) := inferInstanceAs (Decidable (_ ∧ _ ∧ _))

/-- What is at `q`, if anything, gives way to what is at `p`: a file to a file, an empty directory
to a directory. -/
def givesWay (fs : Fs) (p q : Path) : Bool :=
  match fs.lookup p, fs.lookup q with
  | some _, none => true
  | some (.file _), some (.file _) => true
  | some .dir, some .dir => fs.Empty q
  | _, _ => false

/-- The entries after the change, if it can be made. -/
def apply (fs : Fs) : Change → Option Fs
  | .create p v => if Vacant fs p then some (fs.insert p (.file v)) else none
  | .write p v => if p ≠ [] ∧ fs.isFile p then some (fs.insert p (.file v)) else none
  | .mkdir p => if Vacant fs p then some (fs.insert p .dir) else none
  | .remove p =>
    if p ≠ [] ∧ (fs.isFile p ∨ fs.lookup p = some .dir ∧ fs.Empty p) then some (fs.erase p)
    else none
  | .rename p q =>
    if p ≠ [] ∧ q ≠ [] ∧ fs.IsDir q.dropLast ∧ ¬ p <+: q ∧ givesWay fs p q then
      some (Fs.attach q (fs.subtree p) ((fs.detach p).erase q))
    else none
  | .moveOut p => if p ≠ [] ∧ fs.lookup p ≠ none then some (fs.detach p) else none
  | .moveIn q tree => if Vacant fs q ∧ IsTree tree then some (fs.attach q tree) else none

/-- The entries that are created, written, removed or renamed. -/
def notices : Change → List Notice
  | .create p _ => [⟨.create, p⟩]
  | .write p _ => [⟨.write, p⟩]
  | .mkdir p => [⟨.create, p⟩]
  | .remove p => [⟨.remove, p⟩]
  | .rename p q => [⟨.rename, p⟩, ⟨.create, q⟩]
  | .moveOut p => [⟨.rename, p⟩]
  | .moveIn q _ => [⟨.create, q⟩]

/-- The directories whose watches end, with all below them. -/
def unwatched : Change → List Path
  | .remove p => [p]
  | .rename p q => [p, q]
  | .moveOut p => [p]
  | _ => []

end Change

/-! ### The watcher -/

/-- What `os.Stat` tells of a file. -/
structure FileInfo where
  size : ℤ
  modTime : Time
deriving DecidableEq

def Version.info (v : Version) : FileInfo := ⟨v.content.length, v.modTime⟩

/-- Where `processFile` is with a path. -/
inductive Stage
  | check (info : FileInfo)
  | chunk (info : FileInfo)
  | commit (info : FileInfo) (chunks : List Cas.Chunk)
  | delete
deriving DecidableEq

/-- A `flushPending` that runs: the map of paths it has taken, those still to come in the loop, and
the one it is at. -/
structure Flush where
  paths : List Path
  todo : List Path
  job : Option (Path × Stage)

structure State where
  fs : Fs
  watched : List Path
  queue : List Notice
  pending : List Path
  flush : Option Flush
  tables : Tables
  errors : List Err

inductive Event
  | change (c : Change)
  | handle
  | flush
  | visit (p : Path)
  | work (foreignKeys : Bool)
  | finish

def computeMerkleRoot (hashes : List Bytes) : Bytes :=
  if hashes = [] then List.replicate 32 0 else (Sha256.sum256 hashes.flatten).bytes

/-- The record of `handleUpdate`, under a path in the database. -/
def newRecord (relPath : Bytes) (info : FileInfo) (chunks : List Cas.Chunk) : Db.FileRecord :=
  ⟨0, relPath, computeMerkleRoot (chunks.map Cas.Chunk.hash), info.size, info.modTime,
    chunks.length⟩

/-- The record of a file. -/
def record (p : Path) : FileInfo → List Cas.Chunk → Db.FileRecord := newRecord (relPath p)

namespace State

/-- The program makes the change; the events of watched directories are queued. -/
def change (s : State) (c : Change) (fs : Fs) : State :=
  { s with
    fs := fs
    watched := s.watched.filter fun d => ∀ p ∈ c.unwatched, ¬ p <+: d
    queue := s.queue ++ c.notices.filter fun e => e.path.dropLast ∈ s.watched }

def handleEvent (s : State) (event : Notice) : State :=
  if ∃ n ∈ event.path.getLast?, Hidden n then s
  else if event.op = .create ∧ s.fs.lookup event.path = some .dir then
    { s with watched := event.path :: s.watched }
  else { s with pending := if event.path ∈ s.pending then s.pending else event.path :: s.pending }

/-- `processFile` returns an error, which is reported. -/
def fail (s : State) (p : Path) (f : Flush) (e : Err) : State :=
  { s with
    flush := some { f with job := none }
    errors := s.errors ++ [.wrapOf "processing" (relPath p) e] }

/-- The start of `processFile`: the file is looked at. -/
def visit (s : State) (p : Path) (f : Flush) : State :=
  let f := { f with todo := f.todo.filter (· ≠ p) }
  match s.fs.stat p with
  | .error .notExist => { s with flush := some { f with job := some (p, .delete) } }
  | .error e => s.fail p f (.wrap "stat file" (.errno e))
  | .ok .dir => { s with flush := some f }
  | .ok (.file v) => { s with flush := some { f with job := some (p, .check v.info) } }

/-- The next part of `processFile`, and of `handleUpdate` and `handleDelete`; a transaction is run
on a connection with or without foreign keys. -/
def work (foreignKeys : Bool) (s : State) (f : Flush) (p : Path) : Stage → State
  | .check info =>
    match Db.needsUpdate none s.tables (relPath p) info.modTime info.size with
    | .error e => s.fail p f (.wrap "checking needs update" e)
    | .ok false => { s with flush := some { f with job := none } }
    | .ok true => { s with flush := some { f with job := some (p, .chunk info) } }
  | .chunk info =>
    match s.fs.stat p with
    | .error e => s.fail p f (.wrap "opening file" (.errno e))
    | .ok .dir => s.fail p f (.wrap "chunking file" (.errno .isDir))
    | .ok (.file v) =>
      match Cas.chunkAll (v.content.length + 1) (.ofBytes v.content) with
      | .error (.err e) => s.fail p f (.wrap "chunking file" e)
      | .error _ => s
      | .ok chunks => { s with flush := some { f with job := some (p, .commit info chunks) } }
  | .commit info chunks =>
    match Db.transaction foreignKeys {} (Db.updateTx (record p info chunks)
      (chunks.map Cas.Chunk.hash) (chunks.map fun c => (c.size.toNat : ℤ))) s.tables with
    | (.error e, tables) => { s with tables := tables }.fail p f (.wrap "updating database" e)
    | (.ok (), tables) => { s with tables := tables, flush := some { f with job := none } }
  | .delete =>
    match Db.transaction foreignKeys {} (Db.deleteTx (relPath p)) s.tables with
    | (.error e, tables) =>
      { s with tables := tables }.fail p f (.wrap "deleting from database" e)
    | (.ok (), tables) => { s with tables := tables, flush := some { f with job := none } }

def step (s : State) : Event → Option State
  | .change c => (c.apply s.fs).map (s.change c)
  | .handle =>
    match s.queue with
    | [] => none
    | event :: queue => some ({ s with queue := queue }.handleEvent event)
  | .flush =>
    if s.flush.isSome then none
    else if s.pending = [] then some s
    else some { s with pending := [], flush := some ⟨s.pending, s.pending, none⟩ }
  | .visit p =>
    match s.flush with
    | some ⟨paths, todo, none⟩ =>
      if p ∈ todo then some (s.visit p ⟨paths, todo, none⟩) else none
    | _ => none
  | .work foreignKeys =>
    match s.flush with
    | some ⟨paths, todo, some (p, stage)⟩ =>
      some (s.work foreignKeys ⟨paths, todo, some (p, stage)⟩ p stage)
    | _ => none
  | .finish =>
    match s.flush with
    | some ⟨_, [], none⟩ => some { s with flush := none }
    | _ => none

end State

/-- The row of the file in the database. -/
def State.row (s : State) (p : Path) : Option Db.FileRow := s.tables.files.lookup (relPath p)

theorem Fs.isFile_iff {fs : Fs} {p : Path} :
    fs.isFile p = true ↔ ∃ v, fs.lookup p = some (.file v) := by
  rw [Fs.isFile]
  split
  · next v h => exact iff_of_true rfl ⟨v, h⟩
  · next h => exact iff_of_false (by simp) fun ⟨v, hv⟩ => h v hv

theorem Fs.stat_of_some {fs : Fs} {p : Path} {n : Node} (h : fs.lookup p = some n) :
    fs.stat p = .ok n := by
  rw [Fs.stat, h]

theorem Fs.stat_of_none {fs : Fs} {p : Path} (h : fs.lookup p = none) :
    ∃ e, fs.stat p = .error e ∧ (e = .notExist ∨ e = .notDir ∧ ∃ a ∈ p.inits, fs.isFile a) := by
  rw [Fs.stat, h]
  dsimp only
  split
  · next hfile => exact ⟨_, rfl, .inr ⟨rfl, hfile⟩⟩
  · exact ⟨_, rfl, .inl rfl⟩

theorem Fs.stat_eq_notDir {fs : Fs} {p : Path} :
    fs.stat p = .error .notDir ↔ fs.lookup p = none ∧ ∃ a ∈ p.inits, fs.isFile a := by
  rw [Fs.stat]
  cases fs.lookup p with
  | none => simp
  | some n => simp

/-! ### Paths in the database -/

theorem relPath_injective : Function.Injective relPath := by
  intro p q h
  have hplain : ∀ r : Path, ∀ c ∈ r.map Subtype.val, Filepath.Plain c := by
    intro r c hc
    obtain ⟨n, -, rfl⟩ := List.mem_map.1 hc
    exact n.2
  have hmap : p.map Subtype.val = q.map Subtype.val := by
    by_cases hp : p.map Subtype.val = []
    · have hq : relPath q = [] := h ▸ (Filepath.relative_eq_nil (hplain p)).2 hp
      rw [hp, (Filepath.relative_eq_nil (hplain q)).1 hq]
    · have hq : q.map Subtype.val ≠ [] := fun hq =>
        hp ((Filepath.relative_eq_nil (hplain p)).1
          (h.trans ((Filepath.relative_eq_nil (hplain q)).2 hq)))
      rw [← Filepath.split_relative (hplain p) hp, ← Filepath.split_relative (hplain q) hq]
      exact congrArg Filepath.split h
  exact List.map_injective_iff.2 Subtype.val_injective hmap

/-! ### One path in `flushPending` -/

namespace State

/-- A change of the flush and what it has done to the tables. -/
structure Frame (s s' : State) (f : Flush) (p : Path) : Prop where
  fs : s'.fs = s.fs
  watched : s'.watched = s.watched
  queue : s'.queue = s.queue
  pending : s'.pending = s.pending
  rows : ∀ key, key ≠ relPath p → s'.tables.files.lookup key = s.tables.files.lookup key
  flush : ∃ job, s'.flush = some ⟨f.paths, f.todo, job⟩ ∧ ∀ q stage, job = some (q, stage) → q = p

variable {s : State} {p : Path} {f : Flush}

theorem frame_fail (e : Err) : Frame s (s.fail p f e) f p :=
  ⟨rfl, rfl, rfl, rfl, fun _ _ => rfl, none, rfl, nofun⟩

theorem frame_end : Frame s { s with flush := some { f with job := none } } f p :=
  ⟨rfl, rfl, rfl, rfl, fun _ _ => rfl, none, rfl, nofun⟩

theorem frame_at (stage : Stage) :
    Frame s { s with flush := some { f with job := some (p, stage) } } f p := by
  refine ⟨rfl, rfl, rfl, rfl, fun _ _ => rfl, some (p, stage), rfl, ?_⟩
  rintro q stage' ⟨⟩
  rfl

/-- A visit takes the path from those still to come. -/
theorem frame_visit (h : f.job = none) :
    Frame s (s.visit p f) { f with todo := f.todo.filter (· ≠ p) } p := by
  rw [visit]
  dsimp only
  split
  · exact frame_at (f := ⟨f.paths, f.todo.filter (· ≠ p), f.job⟩) _
  · exact frame_fail _
  · rw [h]
    exact frame_end (f := ⟨f.paths, f.todo.filter (· ≠ p), none⟩)
  · exact frame_at (f := ⟨f.paths, f.todo.filter (· ≠ p), f.job⟩) _

/-- The record has the size and the second of the file: it is taken to be up to date. -/
theorem work_check_same (foreignKeys : Bool) {info : FileInfo}
    (h : ∃ row, s.tables.files.lookup (relPath p) = some row ∧ row.size = info.size ∧
      row.modTime = Db.unix info.modTime) :
    s.work foreignKeys f p (.check info) = { s with flush := some { f with job := none } } := by
  rw [work, Db.needsUpdate_eq_false.2 h]

theorem work_check_changed (foreignKeys : Bool) {info : FileInfo}
    (h : ¬ ∃ row, s.tables.files.lookup (relPath p) = some row ∧ row.size = info.size ∧
      row.modTime = Db.unix info.modTime) :
    s.work foreignKeys f p (.check info) =
      { s with flush := some { f with job := some (p, .chunk info) } } := by
  rw [work, Db.needsUpdate_eq_true.2 h]

theorem work_chunk (foreignKeys : Bool) (info : FileInfo) {v : Version}
    (h : s.fs.lookup p = some (.file v)) :
    s.work foreignKeys f p (.chunk info) =
      { s with
        flush := some { f with job := some (p, .commit info (Cas.chunksOf v.content)) } } := by
  rw [work, Fs.stat_of_some h]
  dsimp only
  rw [Cas.chunkAll_ofBytes (Nat.lt_succ_self _)]

/-- The file is gone when it is opened. -/
theorem work_chunk_fails (foreignKeys : Bool) (info : FileInfo) (h : s.fs.isFile p = false) :
    ∃ e, s.work foreignKeys f p (.chunk info) = s.fail p f e := by
  rw [work]
  cases hn : s.fs.lookup p with
  | none =>
    obtain ⟨e, he, -⟩ := Fs.stat_of_none hn
    rw [he]
    exact ⟨_, rfl⟩
  | some n =>
    rw [Fs.stat_of_some hn]
    cases n with
    | dir => exact ⟨_, rfl⟩
    | file v => rw [Fs.isFile_iff.2 ⟨v, hn⟩] at h; cases h

theorem spare_default (n : ℕ) : ({} : Db.Faults).Spare n := ⟨rfl, fun _ _ => rfl, rfl⟩

/-- The tables after the update of `handleUpdate`. -/
def updated (s : State) (p : Path) (info : FileInfo) (chunks : List Cas.Chunk) : Tables :=
  s.tables.update (record p info chunks) (chunks.map Cas.Chunk.hash)
    (chunks.map fun c => (c.size.toNat : ℤ))

theorem work_commit (foreignKeys : Bool) (info : FileInfo) (chunks : List Cas.Chunk) :
    s.work foreignKeys f p (.commit info chunks) =
      { s with
        tables := s.updated p info chunks
        flush := some { f with job := none } } := by
  rw [work, Db.update_of_spare _ _ _ _ (spare_default _)]
  rfl

theorem work_delete (foreignKeys : Bool) :
    s.work foreignKeys f p .delete =
      { s with
        tables := s.tables.deleteFile foreignKeys (relPath p)
        flush := some { f with job := none } } := by
  rcases Db.delete_cases foreignKeys {} (relPath p) s.tables with ⟨h, -⟩ | ⟨-, h⟩
  · exact absurd (spare_default 1) h
  · rw [work, h]

/-- The work on a path leaves everything else. -/
theorem frame_work (foreignKeys : Bool) (stage : Stage) :
    Frame s (s.work foreignKeys f p stage) f p := by
  cases stage with
  | check info =>
    by_cases h : ∃ row, s.tables.files.lookup (relPath p) = some row ∧ row.size = info.size ∧
      row.modTime = Db.unix info.modTime
    · rw [work_check_same foreignKeys h]
      exact frame_end
    · rw [work_check_changed foreignKeys h]
      exact frame_at _
  | chunk info =>
    cases hfile : s.fs.isFile p with
    | false =>
      obtain ⟨e, he⟩ := @work_chunk_fails s p f foreignKeys info hfile
      rw [he]
      exact frame_fail e
    | true =>
      obtain ⟨v, hv⟩ := Fs.isFile_iff.1 hfile
      rw [work_chunk foreignKeys info hv]
      exact frame_at _
  | commit info chunks =>
    rw [work_commit]
    refine ⟨rfl, rfl, rfl, rfl, ?_, none, rfl, nofun⟩
    intro key hkey
    exact Tables.lookup_update_ne _ _ _ hkey
  | delete =>
    rw [work_delete]
    refine ⟨rfl, rfl, rfl, rfl, ?_, none, rfl, nofun⟩
    intro key hkey
    exact Tables.lookup_deleteFile_ne _ _ hkey

/-! ### The events of the system -/

/-- What an event can do. -/
inductive Move (s : State) : Event → State → Prop
  | change {c : Change} {fs : Fs} (hc : c.apply s.fs = some fs) : Move s (.change c) (s.change c fs)
  | handle {event : Notice} {queue : List Notice} (hq : s.queue = event :: queue) :
      Move s .handle ({ s with queue := queue }.handleEvent event)
  | idle : Move s .flush s
  | flush (hidle : s.flush = none) :
      Move s .flush { s with pending := [], flush := some ⟨s.pending, s.pending, none⟩ }
  | visit {paths todo : List Path} {p : Path} (hf : s.flush = some ⟨paths, todo, none⟩)
      (hp : p ∈ todo) : Move s (.visit p) (s.visit p ⟨paths, todo, none⟩)
  | work {f : Flush} {p : Path} {stage : Stage} (foreignKeys : Bool) (hf : s.flush = some f)
      (hjob : f.job = some (p, stage)) : Move s (.work foreignKeys) (s.work foreignKeys f p stage)
  | finish {paths : List Path} (hf : s.flush = some ⟨paths, [], none⟩) :
      Move s .finish { s with flush := none }

theorem move_of_step {s s' : State} {e : Event} (hs : s.step e = some s') : Move s e s' := by
  cases e with
  | change c =>
    obtain ⟨fs, hc, rfl⟩ := Option.map_eq_some_iff.1 hs
    exact .change hc
  | handle =>
    rw [step] at hs
    split at hs
    · cases hs
    · next event queue hq =>
      cases hs
      exact .handle hq
  | flush =>
    rw [step] at hs
    split at hs
    · cases hs
    · next hidle =>
      split at hs
      · cases hs
        exact .idle
      · cases hs
        exact .flush (Option.not_isSome_iff_eq_none.1 hidle)
  | visit p =>
    rw [step] at hs
    split at hs
    · next paths todo hf =>
      obtain ⟨hp, ⟨⟩⟩ := Option.ite_none_right_eq_some.1 hs
      exact .visit hf hp
    · cases hs
  | work foreignKeys =>
    rw [step] at hs
    split at hs
    · next paths todo p stage hf =>
      cases hs
      exact .work foreignKeys hf rfl
    · cases hs
  | finish =>
    rw [step] at hs
    split at hs
    · next paths hf =>
      cases hs
      exact .finish hf
    · cases hs

/-- An event of `fsnotify` changes only what is watched and pending. -/
theorem handleEvent_frame {s : State} (event : Notice) :
    (s.handleEvent event).fs = s.fs ∧ (s.handleEvent event).queue = s.queue ∧
      (s.handleEvent event).flush = s.flush ∧ (s.handleEvent event).tables = s.tables := by
  rw [handleEvent]
  split
  · exact ⟨rfl, rfl, rfl, rfl⟩
  · split
    · exact ⟨rfl, rfl, rfl, rfl⟩
    · exact ⟨rfl, rfl, rfl, rfl⟩

end State

end FileSync.Watcher
