import FileSync.Db.Referential
import FileSync.Merkle.Build
import FileSync.Os.Names
import FileSync.Os.Walk
import FileSync.Watcher.Freshness

/-!
# Watcher — the scan of the whole directory

`ScanAll` of `internal/watcher/watcher.go` walks the watched directory, and `handleUpdate` records
each file that it comes to and that is not hidden.  The directory stands still meanwhile, and its
path may be relative to a working directory.  The walk does not follow links, and `DirEntry.Info`
tells of a link itself; but the link is opened like a file, and what is read is what it leads to.

* `handleUpdate_ok`: the row of a file is made from its content.  `merkleRoot_eq_iff`: its Merkle
  root is the hash that the tree of `internal/merkle` has for the same content, exactly if there is
  any content.
* `scanAll_covers_iff`: after a scan into an empty database that reports no error there is a row for
  each file whose path below the root has no hidden name, and no other, exactly if the last element
  of the root's path is not hidden or there is no such file, and the text of each link to a file is
  as long as the file.  `Start` makes an exception for the root; `ScanAll` does not.
-/

namespace FileSync.Watcher
open Filepath (base clean elements isAbs lead pathOf rel relative split Plain)
open Os.Linked (Leads maxLinks)
open Db (Time Tables FileRow FileRecord)

/-! ### `handleUpdate` -/

/-- `handleUpdate` of a file that is opened, or not. -/
def handleUpdate (foreignKeys : Bool) (file : Except Errno Reader) (relPath : Bytes)
    (info : FileInfo) (t : Tables) : Go Unit × Tables :=
  match file with
  | .error e => (.error (.err (.wrap "opening file" (.errno e))), t)
  | .ok f =>
    match Cas.chunkAll (f.rest.length + 1) f with
    | .error (.err e) => (.error (.err (.wrap "chunking file" e)), t)
    | .error f => (.error f, t)
    | .ok chunks =>
      match Db.transaction foreignKeys {} (Db.updateTx (newRecord relPath info chunks)
        (chunks.map Cas.Chunk.hash) (chunks.map fun c => (c.size.toNat : ℤ))) t with
      | (.error e, t) => (.error (.err (.wrap "updating database" e)), t)
      | (.ok (), t) => (.ok (), t)

/-- The chunk list of a content, as it is kept in the database. -/
def chunkList (content : Bytes) : List (Bytes × ℤ) :=
  (Cas.chunksOf content).map fun c => (c.hash, (c.size.toNat : ℤ))

theorem handleUpdate_ok (foreignKeys : Bool) (content relPath : Bytes) (info : FileInfo)
    (t : Tables) :
    handleUpdate foreignKeys (.ok (.ofBytes content)) relPath info t =
      (.ok (), t.update (newRecord relPath info (Cas.chunksOf content))
        ((chunkList content).map Prod.fst) ((chunkList content).map Prod.snd)) := by
  have hall := Cas.chunkAll_ofBytes (Nat.lt_succ_self content.length)
  rw [handleUpdate, show (Reader.ofBytes content).rest = content from rfl, hall]
  dsimp only
  rw [Db.update_of_spare _ _ _ _ (State.spare_default _)]
  simp only [chunkList, List.map_map]
  rfl

/-- A directory can be opened, but not read. -/
theorem handleUpdate_dir (foreignKeys : Bool) (relPath : Bytes) (info : FileInfo) (t : Tables) :
    handleUpdate foreignKeys (.ok ⟨[], some (.errno .isDir)⟩) relPath info t =
      (.error (.err (.wrap "chunking file" (.errno .isDir))), t) := rfl

/-! ### One root for a content -/

theorem computeMerkleRoot_of_ne_nil {hashes : List Bytes} (h : hashes ≠ []) :
    computeMerkleRoot hashes = (Sha256.sum256 hashes.flatten).bytes := if_neg h

theorem hash_buildFileNode (name : Bytes) (mode : UInt32) (content : Bytes) :
    (Merkle.buildFileNode name mode content).hash =
      (Sha256.sum256 ((Cas.chunksOf content).map Cas.Chunk.hash).flatten).bytes :=
  Merkle.Node.hash_computeFileHash _

/-- The root of the empty list is not the hash of nothing. -/
theorem merkleRootOf_nil_ne : merkleRootOf [] ≠ (Sha256.sum256 []).bytes := by decide +kernel

theorem chunksOf_eq_nil {content : Bytes} : Cas.chunksOf content = [] ↔ content = [] := by
  constructor
  · intro h
    by_contra hne
    rw [Cas.chunksOf, Blocks.blocks_of_ne_nil (by decide) hne] at h
    cases h
  · rintro rfl
    rfl

theorem merkleRootOf_eq_iff (name : Bytes) (mode : UInt32) (content : Bytes) :
    merkleRootOf content = (Merkle.buildNode name (.file mode content)).hash ↔ content ≠ [] := by
  rw [Merkle.buildNode, hash_buildFileNode]
  constructor
  · rintro h rfl
    exact merkleRootOf_nil_ne h
  · intro hne
    exact computeMerkleRoot_of_ne_nil fun h => hne (chunksOf_eq_nil.1 (List.map_eq_nil_iff.1 h))

/-- **Two roots for the empty file.**  The Merkle root that `handleUpdate` stores is the hash of the
file's node in the tree exactly if the file is not empty. -/
theorem merkleRoot_eq_iff (foreignKeys : Bool) (content relPath : Bytes) (info : FileInfo)
    (t : Tables) (name : Bytes) (mode : UInt32) :
    ∃ t' row, handleUpdate foreignKeys (.ok (.ofBytes content)) relPath info t = (.ok (), t') ∧
      t'.files.lookup relPath = some row ∧
      (row.merkleRoot = (Merkle.buildNode name (.file mode content)).hash ↔ content ≠ []) := by
  obtain ⟨id, hrow⟩ := t.lookup_update_self (newRecord relPath info (Cas.chunksOf content))
    ((chunkList content).map Prod.fst) ((chunkList content).map Prod.snd)
  exact ⟨_, _, handleUpdate_ok foreignKeys content relPath info t, hrow,
    merkleRootOf_eq_iff name mode content⟩

theorem empty_file_two_roots :
    ((handleUpdate true (.ok (.ofBytes [])) [101] ⟨0, 0⟩ .empty).2.files.lookup [101]).map
        FileRow.merkleRoot = some (List.replicate 32 0) ∧
      (Merkle.buildNode [101] (.file 0o644 [])).hash ≠ List.replicate 32 0 := by
  refine ⟨?_, ?_⟩
  · decide +kernel
  · decide +kernel

/-! ### `ScanAll` -/

/-- The file system, the working directory, and when what a path names was written. -/
structure Disk where
  fs : Os.Linked.Fs
  cwd : List Bytes
  modTime : Bytes → Time

namespace Disk

variable (disk : Disk)

/-- The directory from which a path is taken. -/
def start (path : Bytes) : List Bytes := if isAbs path then [] else disk.cwd

/-- Where a path leads. -/
def place (path : Bytes) : Except Errno (List Bytes) :=
  Os.Linked.follow disk.fs.root maxLinks (disk.start path) (split path)

/-- Where the last name of a path stands, which may be a link; a path that ends in a separator, `.`
or `..` is followed to its end. -/
def placeOfName (path : Bytes) : Except Errno (List Bytes) :=
  match (split path).getLast? with
  | none => disk.place path
  | some c =>
    if Plain c then do
      let here ← Os.Linked.follow disk.fs.root maxLinks (disk.start path) (split path).dropLast
      match Os.Linked.reach disk.fs.root here with
      | none => .error .notExist
      | some (.dir ..) => .ok (here ++ [c])
      | some _ => .error .notDir
    else disk.place path

/-- `os.Lstat`, with what is below a directory. -/
def lstat (path : Bytes) : Except Errno Os.Entry := do
  match Os.Linked.reach disk.fs.root (← disk.placeOfName path) with
  | none => .error .notExist
  | some e => .ok (Os.Linked.listed disk.fs.inodes e)

/-- `os.Open`; of a directory there is nothing to read. -/
def openFile (path : Bytes) : Except Errno Reader := do
  match Os.Linked.reach disk.fs.root (← disk.place path) with
  | none => .error .notExist
  | some (.file ino) => .ok (.ofBytes (disk.fs.inodes ino).content)
  | some (.dir ..) => .ok ⟨[], some (.errno .isDir)⟩
  | some (.link _) => .error .loop

/-- What `DirEntry.Info` tells of an entry: of a link, the length of its text. -/
def info (path : Bytes) : Os.Entry → FileInfo
  | .file _ content => ⟨content.length, disk.modTime path⟩
  | .dir .. => ⟨0, disk.modTime path⟩

end Disk

/-- The function of `ScanAll`, on the tables and the errors that were reported; each transaction is
run on a connection with or without foreign keys. -/
def scanFile (foreignKeys : Bytes → Bool) (disk : Disk) (rootPath : Bytes) (v : Os.Visit)
    (st : Tables × List Err) : Go (Os.Verdict × (Tables × List Err)) :=
  if Merkle.hidden v.name then
    if v.entry.isDir then .ok (.skipDir, st) else .ok (.go, st)
  else if v.entry.isDir then .ok (.go, st)
  else
    match rel rootPath v.path with
    | none =>
      .ok (.fail (.wrap "getting relative path" (.text "Rel: can't make path relative")), st)
    | some relPath =>
      let info := disk.info v.path v.entry
      match Db.needsUpdate none st.1 relPath info.modTime info.size with
      | .error e => .ok (.fail (.wrap "checking needs update" e), st)
      | .ok false => .ok (.go, st)
      | .ok true =>
        match handleUpdate (foreignKeys relPath) (disk.openFile v.path) relPath info st.1 with
        | (.ok (), t) => .ok (.go, (t, st.2))
        | (.error (.err e), t) => .ok (.go, (t, st.2 ++ [.wrapOf "scanning" relPath e]))
        | (.error f, _) => .error f

/-- `ScanAll`: its error, the tables and the errors that were reported. -/
def scanAll (foreignKeys : Bytes → Bool) (disk : Disk) (rootPath : Bytes) (t : Tables) :
    Go (Option Err × (Tables × List Err)) :=
  match disk.lstat rootPath with
  | .error e => .ok (some (.errno e), (t, []))
  | .ok root => do
      match ← Os.walk (scanFile foreignKeys disk rootPath) rootPath (base rootPath) root
        (t, []) with
      | (.fail e, st) => return (some e, st)
      | (_, st) => return (none, st)

/-! ### What is to be recorded -/

/-- The files below a directory whose names there are not hidden, under their paths in the database.
A link to a file is one. -/
def Files (fs : Os.Linked.Fs) (d : List Bytes) (path content : Bytes) : Prop :=
  ∃ names, Merkle.Visible names ∧ Os.Linked.reach fs.root (d ++ names) ≠ none ∧
    fs.content (d ++ names) = some content ∧ relative names = path

/-- There is a record for exactly these files, each with its size, chunk count and chunk list. -/
structure Covers (files : Bytes → Bytes → Prop) (t : Tables) : Prop where
  complete : ∀ path content, files path content → ∃ row, t.files.lookup path = some row ∧
    row.size = content.length ∧ Db.Holds t row (chunkList content)
  sound : ∀ path row, t.files.lookup path = some row → ∃ content, files path content

/-- The path is that of a directory, and still is when it is cleaned: it has no `..` behind a link
that leads elsewhere. -/
structure Rooted (disk : Disk) (rootPath : Bytes) (d : List Bytes) (mode : UInt32)
    (entries : List (Bytes × Os.Linked.Entry)) : Prop where
  wf : disk.fs.WF
  ne_nil : rootPath ≠ []
  place : disk.place rootPath = .ok d
  clean : disk.place (clean rootPath) = .ok d
  dir : Os.Linked.reach disk.fs.root d = some (.dir mode entries)

/-! ### One visit -/

/-- The visit is of a file or a link whose name is not hidden. -/
def Shown (v : Os.Visit) : Prop := Merkle.hidden v.name = false ∧ v.entry.isDir = false

/-- And it can be read: under this path a record is made, with the size of what stands there and the
chunks of what it leads to. -/
def Due (disk : Disk) (rootPath : Bytes) (v : Os.Visit) (path : Bytes) (size : ℕ)
    (content : Bytes) : Prop :=
  Merkle.hidden v.name = false ∧ (∃ mode text, v.entry = .file mode text ∧ text.length = size) ∧
    rel rootPath v.path = some path ∧ disk.openFile v.path = .ok (.ofBytes content)

def DueIn (disk : Disk) (rootPath : Bytes) (vs : List Os.Visit) (path : Bytes) (size : ℕ)
    (content : Bytes) : Prop :=
  ∃ v ∈ vs, Due disk rootPath v path size content

/-- A file has a row already, or is given one. -/
def Enters (t : Tables) (path : Bytes) (size : ℕ) (content : Bytes) (t' : Tables) : Prop :=
  t.files.lookup path ≠ none ∧ t' = t ∨
    ∃ info : FileInfo, info.size = size ∧
      t' = t.update (newRecord path info (Cas.chunksOf content))
        ((chunkList content).map Prod.fst) ((chunkList content).map Prod.snd)

section Visit

variable {disk : Disk} {rootPath : Bytes} {v : Os.Visit}

/-- What is opened is read to the end, or not at all. -/
theorem openFile_cases (disk : Disk) (path : Bytes) :
    (∃ content, disk.openFile path = .ok (.ofBytes content)) ∨
      ∀ foreignKeys relPath info t, ∃ e,
        handleUpdate foreignKeys (disk.openFile path) relPath info t = (.error (.err e), t) := by
  rw [Disk.openFile]
  cases disk.place path with
  | error e => exact .inr fun _ _ _ _ => ⟨_, rfl⟩
  | ok p =>
    dsimp only [bind, Except.bind]
    rcases Os.Linked.reach disk.fs.root p with _ | ⟨ino⟩ | ⟨text⟩ | ⟨m, es⟩
    · exact .inr fun _ _ _ _ => ⟨_, rfl⟩
    · exact .inl ⟨_, rfl⟩
    · exact .inr fun _ _ _ _ => ⟨_, rfl⟩
    · exact .inr fun foreignKeys relPath info t => ⟨_, handleUpdate_dir ..⟩

theorem scanFile_of_not_shown (foreignKeys : Bytes → Bool) (h : ¬ Shown v)
    (st : Tables × List Err) :
    scanFile foreignKeys disk rootPath v st =
      .ok (if v.entry.isDir && Merkle.hidden v.name then .skipDir else .go, st) := by
  rw [Shown] at h
  cases hname : Merkle.hidden v.name <;> cases hdir : v.entry.isDir <;>
    simp_all [scanFile]

theorem Due.shown {path content : Bytes} {size : ℕ} (h : Due disk rootPath v path size content) :
    Shown v := by
  obtain ⟨hname, ⟨mode, text, hentry, -⟩, -⟩ := h
  exact ⟨hname, by rw [hentry]; rfl⟩

theorem Due.unique {path path' content content' : Bytes} {size size' : ℕ}
    (h : Due disk rootPath v path size content) (h' : Due disk rootPath v path' size' content') :
    size' = size ∧ content' = content := by
  obtain ⟨-, ⟨mode, text, hentry, rfl⟩, -, hread⟩ := h
  obtain ⟨-, ⟨mode', text', hentry', rfl⟩, -, hread'⟩ := h'
  cases hentry.symm.trans hentry'
  cases hread.symm.trans hread'
  exact ⟨rfl, rfl⟩

variable (disk) in
/-- **The function of `ScanAll`** at a visit: it makes a record if one is due.  If it reports no
error it can read the file, or finds a record of it. -/
theorem scanFile_spec (foreignKeys : Bytes → Bool) {path : Bytes}
    (hrel : rel rootPath v.path = some path) (t : Tables) (errs : List Err) :
    ∃ t' errs', scanFile foreignKeys disk rootPath v (t, errs) =
        .ok (if v.entry.isDir && Merkle.hidden v.name then .skipDir else .go, (t', errs')) ∧
      ((∀ p size content, ¬ Due disk rootPath v p size content) ∧ t' = t ∨
        ∃ size content, Due disk rootPath v path size content ∧
          Enters t path size content t') ∧
      (errs' = [] → errs = [] ∧ (Shown v →
        (∃ size content, Due disk rootPath v path size content) ∨
          t.files.lookup path ≠ none)) := by
  by_cases hshown : Shown v
  · obtain ⟨hname, hdir⟩ := hshown
    obtain ⟨mode, text, hentry⟩ : ∃ mode text, v.entry = .file mode text := by
      cases h : v.entry with
      | file mode text => exact ⟨mode, text, rfl⟩
      | dir => rw [h] at hdir; cases hdir
    have hdue {content : Bytes} (hread : disk.openFile v.path = .ok (.ofBytes content)) :
        Due disk rootPath v path text.length content :=
      ⟨hname, ⟨mode, text, hentry, rfl⟩, hrel, hread⟩
    simp only [scanFile, hname, hdir, hrel, Bool.false_eq_true, if_false, Bool.and_false]
    by_cases hrow : ∃ row, t.files.lookup path = some row ∧
        row.size = (disk.info v.path v.entry).size ∧
        row.modTime = Db.unix (disk.info v.path v.entry).modTime
    · rw [Db.needsUpdate_eq_false.2 hrow]
      obtain ⟨row, hrow, -⟩ := hrow
      have hsome : t.files.lookup path ≠ none := hrow ▸ Option.some_ne_none row
      refine ⟨t, errs, rfl, ?_, fun h => ⟨h, fun _ => .inr hsome⟩⟩
      by_cases hex : ∃ p size content, Due disk rootPath v p size content
      · obtain ⟨p, size, content, h⟩ := hex
        exact .inr ⟨_, content, hdue h.2.2.2, .inl ⟨hsome, rfl⟩⟩
      · push Not at hex
        exact .inl ⟨hex, rfl⟩
    · rw [Db.needsUpdate_eq_true.2 hrow]
      dsimp only
      rcases openFile_cases disk v.path with ⟨content, hread⟩ | hfail
      · rw [hread, handleUpdate_ok]
        exact ⟨_, errs, rfl, .inr ⟨_, content, hdue hread, .inr ⟨_, by rw [hentry]; rfl, rfl⟩⟩,
          fun h => ⟨h, fun _ => .inl ⟨_, content, hdue hread⟩⟩⟩
      · obtain ⟨e, he⟩ := hfail (foreignKeys path) path (disk.info v.path v.entry) t
        rw [he]
        refine ⟨t, _, rfl, .inl ⟨fun p size content h => ?_, rfl⟩, fun h => by simp at h⟩
        rw [h.2.2.2, handleUpdate_ok] at he
        cases he
  · exact ⟨t, errs, scanFile_of_not_shown foreignKeys hshown _,
      .inl ⟨fun p size content h => hshown h.shown, rfl⟩,
      fun h => ⟨h, fun h' => absurd h' hshown⟩⟩

end Visit

/-! ### One file after another -/

/-- There is a row for each of these files, with the size that is given for it, and no other; with
what the next update needs to know. -/
structure Scanned (files : Bytes → ℕ → Bytes → Prop) (s : Db.State Unit) : Prop where
  rows : Db.Rows s
  complete : ∀ path size content, files path size content →
    ∃ row, s.tables.files.lookup path = some row ∧ row.size = size ∧
      s.last path = some (chunkList content)
  sound : ∀ path row, s.tables.files.lookup path = some row →
    ∃ size content, files path size content

theorem Scanned.congr {files files' : Bytes → ℕ → Bytes → Prop} {s : Db.State Unit}
    (h : Scanned files s)
    (hiff : ∀ path size content, files path size content ↔ files' path size content) :
    Scanned files' s := by
  obtain rfl : files = files' := by
    ext path size content
    exact hiff path size content
  exact h

theorem scanned_empty (seq : ℕ) {files : Bytes → ℕ → Bytes → Prop}
    (h : ∀ path size content, ¬ files path size content) :
    Scanned files ⟨fun _ => true, ⟨∅, seq, []⟩, fun _ => none⟩ where
  rows :=
    { holds := fun _ _ h => nomatch h
      absent := fun _ _ => rfl
      id_inj := fun _ _ _ _ h => nomatch h
      id_le := fun _ _ h => nomatch h
      fileId_le := fun _ h => nomatch h }
  complete path size content hfile := (h path size content hfile).elim
  sound _ _ h := nomatch h

theorem Scanned.holds {files : Bytes → ℕ → Bytes → Prop} {s : Db.State Unit} (h : Scanned files s)
    {path content : Bytes} {size : ℕ} (hfile : files path size content) :
    ∃ row, s.tables.files.lookup path = some row ∧ row.size = size ∧
      Db.Holds s.tables row (chunkList content) := by
  obtain ⟨row, hrow, hsize, hlast⟩ := h.complete path size content hfile
  obtain ⟨chunks, hchunks, hholds⟩ := h.rows.holds path row hrow
  rw [hlast] at hchunks
  cases hchunks
  exact ⟨row, hrow, hsize, hholds⟩

/-- One more file is recorded, unless it is already. -/
theorem Scanned.enter {files : Bytes → ℕ → Bytes → Prop} {s : Db.State Unit} (h : Scanned files s)
    {path content : Bytes} {size : ℕ}
    (hone : ∀ size' content', files path size' content' → size' = size ∧ content' = content)
    {t' : Tables} (henters : Enters s.tables path size content t') :
    ∃ s', s'.tables = t' ∧
      Scanned (fun p n c => files p n c ∨ p = path ∧ n = size ∧ c = content) s' := by
  rcases henters with ⟨hrow, rfl⟩ | ⟨info, hsize, rfl⟩
  · obtain ⟨row, hrow⟩ := Option.ne_none_iff_exists'.1 hrow
    obtain ⟨size', content', hfile⟩ := h.sound path row hrow
    obtain ⟨rfl, rfl⟩ := hone _ _ hfile
    refine ⟨s, rfl, h.congr fun p n c => (or_iff_left_of_imp ?_).symm⟩
    rintro ⟨rfl, rfl, rfl⟩
    exact hfile
  · refine ⟨_, rfl, Db.rows_update h.rows (newRecord path info (Cas.chunksOf content))
      (chunkList content) (by simp [newRecord, chunkList]), ?_, ?_⟩
    · rintro p n c hfile
      by_cases hp : p = path
      · subst hp
        obtain ⟨rfl, rfl⟩ : n = size ∧ c = content := hfile.elim (hone n c) And.right
        obtain ⟨id, hrow⟩ := s.tables.lookup_update_self (newRecord p info (Cas.chunksOf c))
          ((chunkList c).map Prod.fst) ((chunkList c).map Prod.snd)
        exact ⟨_, hrow, hsize, Function.update_self ..⟩
      · obtain ⟨row, hrow, hrest, hlast⟩ := h.complete p n c (hfile.resolve_right fun h => hp h.1)
        exact ⟨row, (s.tables.lookup_update_ne _ _ hp).trans hrow, hrest,
          (Function.update_of_ne hp ..).trans hlast⟩
    · intro p row hrow
      by_cases hp : p = path
      · exact ⟨size, content, .inr ⟨hp, rfl, rfl⟩⟩
      · obtain ⟨n, c, hfile⟩ := h.sound p row ((s.tables.lookup_update_ne _ _ hp).symm.trans hrow)
        exact ⟨n, c, .inl hfile⟩

/-- What `ScanAll` comes to. -/
abbrev visited (rootPath : Bytes) (root : Os.Entry) : List Os.Visit :=
  Os.visits Merkle.hidden rootPath (base rootPath) root

section Scan

variable {disk : Disk} {rootPath : Bytes} {root : Os.Entry}

theorem visible_of_seen {path name : Bytes} {names : List Bytes} {v : Os.Visit}
    (h : Os.Seen Merkle.hidden path name root names v) :
    Merkle.hidden v.name = false ↔ Merkle.Visible (name :: names) := by
  rw [Merkle.Visible, ← List.dropLast_append_getLast? v.name h.name_eq, List.forall_mem_append,
    List.forall_mem_singleton]
  exact (and_iff_right h.passed).symm

theorem rel_self (rootPath : Bytes) : rel rootPath rootPath = some Filepath.dot := by
  have hstrip := Filepath.stripCommon_append (elements rootPath) []
  rw [List.append_nil] at hstrip
  rw [rel, hstrip]
  simp

variable (hroot : rootPath ≠ []) (hwf : root.WF)

include hroot hwf

/-- The path of a visit in the database. -/
theorem rel_of_seen {names : List Bytes} {v : Os.Visit}
    (h : Os.Seen Merkle.hidden rootPath (base rootPath) root names v) :
    rel rootPath v.path = some (if names = [] then Filepath.dot else relative names) := by
  rw [h.path_eq]
  split_ifs with hnil
  · rw [hnil]
    exact rel_self rootPath
  · exact Filepath.rel_pathOf hroot (Os.plain_of_reach hwf h.reached) hnil

/-- Two files under one path are one. -/
theorem visit_unique (hdir : root.isDir = true) {v v' : Os.Visit} (hv : v ∈ visited rootPath root)
    (hv' : v' ∈ visited rootPath root) (h : Shown v) (h' : Shown v')
    (hrel : rel rootPath v.path = rel rootPath v'.path) : v = v' := by
  have henum := Os.enumerates_visits Merkle.hidden hwf rootPath (base rootPath)
  obtain ⟨names, hseen⟩ := henum.mem_iff.1 hv
  obtain ⟨names', hseen'⟩ := henum.mem_iff.1 hv'
  have hne {q : List Bytes} {u : Os.Visit}
      (hu : Os.Seen Merkle.hidden rootPath (base rootPath) root q u) (hfile : Shown u) :
      q ≠ [] := by
    rintro rfl
    have hentry := hu.reached
    rw [Os.reach_nil] at hentry
    rw [Shown, ← Option.some.inj hentry, hdir] at hfile
    cases hfile.2
  rw [rel_of_seen hroot hwf hseen, rel_of_seen hroot hwf hseen', if_neg (hne hseen h),
    if_neg (hne hseen' h')] at hrel
  have hnames : names = names' := by
    rw [← Filepath.split_relative (Os.plain_of_reach hwf hseen.reached) (hne hseen h),
      ← Filepath.split_relative (Os.plain_of_reach hwf hseen'.reached) (hne hseen' h'),
      Option.some.inj hrel]
  subst hnames
  obtain ⟨path, name, entry⟩ := v
  obtain ⟨path', name', entry'⟩ := v'
  obtain rfl : path = path' := hseen.path_eq.trans hseen'.path_eq.symm
  obtain rfl : name = name' := Option.some.inj (hseen.name_eq.symm.trans hseen'.name_eq)
  obtain rfl : entry = entry' := Option.some.inj (hseen.reached.symm.trans hseen'.reached)
  rfl

/-- The loop over what is visited, from any part of it on. -/
theorem scan_visits (hdir : root.isDir = true) (foreignKeys : Bytes → Bool)
    {act : Tables × List Err → Os.Visit → Go (Tables × List Err)}
    (hact : ∀ st v, act st v = Prod.snd <$> scanFile foreignKeys disk rootPath v st)
    {done vs : List Os.Visit} (hdone : done ++ vs = visited rootPath root) {s : Db.State Unit}
    (h : Scanned (DueIn disk rootPath done) s) (errs : List Err) :
    ∃ s' errs', vs.foldlM act (s.tables, errs) = .ok (s'.tables, errs') ∧
      Scanned (DueIn disk rootPath (done ++ vs)) s' ∧
      (errs' = [] → errs = [] ∧ ∀ v ∈ vs, Shown v →
        ∃ path size content, Due disk rootPath v path size content) := by
  induction vs generalizing done s errs with
  | nil => exact ⟨s, errs, rfl, by rwa [List.append_nil], fun h => ⟨h, by simp⟩⟩
  | cons v vs ih =>
    have hnext : done ++ v :: vs = (done ++ [v]) ++ vs := by simp
    rw [hnext] at hdone ⊢
    have hmem : ∀ v' ∈ done ++ [v], v' ∈ visited rootPath root := fun v' hv' =>
      hdone ▸ List.mem_append_left vs hv'
    have hv : v ∈ visited rootPath root := hmem v (by simp)
    obtain ⟨names, hseen⟩ := (Os.enumerates_visits _ hwf _ _).mem_iff.1 hv
    obtain ⟨path, hrel⟩ : ∃ path, rel rootPath v.path = some path :=
      ⟨_, rel_of_seen hroot hwf hseen⟩
    obtain ⟨t', errs', heq, hstep, herrs⟩ := scanFile_spec disk foreignKeys hrel s.tables errs
    have hsame {v' : Os.Visit} (hv' : v' ∈ done ++ [v]) (hshown : Shown v) {p c : Bytes} {n : ℕ}
        (hdue : Due disk rootPath v' p n c) (hp : rel rootPath v.path = some p) : v' = v :=
      visit_unique hroot hwf hdir (hmem v' hv') hv hdue.shown hshown (hdue.2.2.1.trans hp.symm)
    obtain ⟨s₁, rfl, h₁⟩ : ∃ s₁, s₁.tables = t' ∧
        Scanned (DueIn disk rootPath (done ++ [v])) s₁ := by
      have hdueIn : ∀ p n c, DueIn disk rootPath (done ++ [v]) p n c ↔
          DueIn disk rootPath done p n c ∨ Due disk rootPath v p n c := by
        intro p n c
        simp [DueIn, or_and_right, exists_or]
      rcases hstep with ⟨hnone, rfl⟩ | ⟨size, content, hdue, henters⟩
      · exact ⟨s, rfl, h.congr fun p n c =>
          ((hdueIn p n c).trans (or_iff_left (hnone p n c))).symm⟩
      · have hone : ∀ n c, DueIn disk rootPath done path n c → n = size ∧ c = content := by
          rintro n c ⟨v', hv', h'⟩
          obtain rfl := hsame (List.mem_append_left _ hv') hdue.shown h' hrel
          exact hdue.unique h'
        obtain ⟨s₁, hs₁, h₁⟩ := h.enter hone henters
        refine ⟨s₁, hs₁, h₁.congr fun p n c => ?_⟩
        rw [hdueIn]
        refine or_congr_right ⟨?_, fun h' => ?_⟩
        · rintro ⟨rfl, rfl, rfl⟩
          exact hdue
        · obtain rfl := Option.some.inj (hrel.symm.trans h'.2.2.1)
          exact ⟨rfl, hdue.unique h'⟩
    obtain ⟨s', errs'', hrun, hs', herrs'⟩ := ih hdone h₁ errs'
    refine ⟨s', errs'', ?_, hs', fun hnil => ?_⟩
    · rw [List.foldlM_cons, hact, heq]
      exact hrun
    · obtain ⟨hnil', hrest⟩ := herrs' hnil
      obtain ⟨herr, hone⟩ := herrs hnil'
      refine ⟨herr, List.forall_mem_cons.2 ⟨fun hshown => ?_, hrest⟩⟩
      rcases hone hshown with ⟨size, content, hdue⟩ | hrow
      · exact ⟨_, size, content, hdue⟩
      · obtain ⟨row, hrow⟩ := Option.ne_none_iff_exists'.1 hrow
        obtain ⟨size, content, v', hv', hdue⟩ := h.sound _ row hrow
        obtain rfl := hsame (List.mem_append_left _ hv') hshown hdue hrel
        exact ⟨_, size, content, hdue⟩

theorem scanAll_scanned (hdir : root.isDir = true) (foreignKeys : Bytes → Bool)
    (hstat : disk.lstat rootPath = .ok root) (seq : ℕ) :
    ∃ s errs, scanAll foreignKeys disk rootPath ⟨∅, seq, []⟩ = .ok (none, (s.tables, errs)) ∧
      Scanned (DueIn disk rootPath (visited rootPath root)) s ∧
      (errs = [] → ∀ v ∈ visited rootPath root, Shown v →
        ∃ path size content, Due disk rootPath v path size content) := by
  have hempty : Scanned (DueIn disk rootPath []) ⟨fun _ => true, ⟨∅, seq, []⟩, fun _ => none⟩ :=
    scanned_empty seq (by simp [DueIn])
  obtain ⟨s, errs, heq, hscanned, herrs⟩ := scan_visits hroot hwf hdir foreignKeys
    (fun st v => rfl) (List.nil_append _) hempty []
  refine ⟨s, errs, ?_, hscanned, fun h => (herrs h).2⟩
  have hacts : Os.Acts (scanFile foreignKeys disk rootPath)
      (fun st v => Prod.snd <$> scanFile foreignKeys disk rootPath v st) Merkle.hidden
      (visited rootPath root) := by
    rintro v hv ⟨t, errs⟩
    obtain ⟨names, hseen⟩ := (Os.enumerates_visits _ hwf _ _).mem_iff.1 hv
    obtain ⟨t', errs', heq, -⟩ :=
      scanFile_spec disk foreignKeys (rel_of_seen hroot hwf hseen) t errs
    dsimp only
    rw [heq]
    rfl
  rw [scanAll, hstat]
  dsimp only
  rw [Os.walk_eq_foldlM rootPath (base rootPath) root _ hacts, heq]
  rfl

end Scan

/-! ### Where the paths of the walk lead -/

theorem openFile_eq_ok {disk : Disk} {path content : Bytes} :
    disk.openFile path = .ok (.ofBytes content) ↔
      ∃ p ino, disk.place path = .ok p ∧ Os.Linked.reach disk.fs.root p = some (.file ino) ∧
        (disk.fs.inodes ino).content = content := by
  rw [Disk.openFile]
  cases disk.place path with
  | error e => simp [bind, Except.bind]
  | ok p =>
    rcases hp : Os.Linked.reach disk.fs.root p with _ | ⟨ino⟩ | ⟨text⟩ | ⟨m, es⟩ <;>
      simp [bind, Except.bind, hp, Reader.ofBytes]

section Rooted

variable {disk : Disk} {rootPath : Bytes} {d : List Bytes} {mode : UInt32}
  {entries : List (Bytes × Os.Linked.Entry)} (h : Rooted disk rootPath d mode entries)

include h

theorem Rooted.leads :
    Leads disk.fs.root maxLinks (disk.start rootPath) (lead rootPath ++ elements rootPath) d := by
  have hclean := h.clean
  rw [Disk.place, Disk.start, Filepath.isAbs_clean, Os.Linked.follow_eq_ok] at hclean
  by_cases hnil : elements rootPath = []
  · rw [Filepath.clean_of_elements_eq_nil hnil] at hclean
    rw [hnil, List.append_nil, Disk.start, lead]
    split_ifs at hclean ⊢ with habs
    · cases hclean with
      | step hdir hno hrest =>
        obtain rfl : d = [] := by
          cases hrest with
          | step _ _ hdone => cases hdone; rfl
          | jump _ hlink _ => exact absurd hlink (hno _)
        exact .step hdir hno .done
      | jump hdir hlink _ => cases hdir.symm.trans hlink
    · cases hclean with
      | step _ _ hdone =>
        cases hdone
        exact .done
      | jump hdir hlink _ => cases hdir.symm.trans hlink
  · rwa [Filepath.split_clean hnil] at hclean

theorem Rooted.leads_root : Leads disk.fs.root 0 [] d d := by
  have hreach : Os.Linked.reach disk.fs.root ([] ++ d) = some (.dir mode entries) := h.dir
  exact Os.Linked.leads_of_reach (Os.Linked.Fs.wf_of_reach h.wf h.dir).2 hreach trivial

/-- What is read under the path of a walk is the content of what stands there. -/
theorem Rooted.content_of_open {names : List Bytes} (hnames : ∀ n ∈ names, Plain n)
    (hne : names ≠ []) {content : Bytes}
    (hopen : disk.openFile (pathOf rootPath names) = .ok (.ofBytes content)) :
    disk.fs.content (d ++ names) = some content := by
  obtain ⟨p, ino, hp, hino, hcontent⟩ := openFile_eq_ok.1 hopen
  rw [Disk.place, Disk.start, (Filepath.pathOf_spec h.ne_nil hnames).2.1,
    Filepath.split_pathOf h.ne_nil hnames hne, Os.Linked.follow_eq_ok] at hp
  have hplace : disk.fs.place (d ++ names) = .ok p :=
    Os.Linked.Fs.place_eq_ok.2 (h.leads_root.trans (h.leads.rest hp))
  exact Os.Linked.Fs.content_eq_some_iff.2
    ⟨p, hplace, ino, Os.Linked.view_eq_file.2 hino, hcontent⟩

/-- The root of the walk is the directory, or a link to it. -/
theorem Rooted.lstat :
    disk.lstat rootPath = .ok (Os.Linked.listed disk.fs.inodes (.dir mode entries)) ∨
      ∃ text, disk.lstat rootPath = .ok (.file Os.Linked.linkMode text) := by
  have hname : disk.placeOfName rootPath = .ok d ∨
      ∃ p text, disk.placeOfName rootPath = .ok p ∧
        Os.Linked.reach disk.fs.root p = some (.link text) := by
    rcases List.eq_nil_or_concat (split rootPath) with hnil | ⟨init, c, hsplit⟩
    · exact absurd hnil (List.splitOn_ne_nil _ _)
    · rw [List.concat_eq_append] at hsplit
      rw [Disk.placeOfName, hsplit, List.getLast?_concat]
      dsimp only
      split_ifs with hc
      · have hd := Os.Linked.follow_eq_ok.1 h.place
        rw [hsplit] at hd
        obtain ⟨r, m, hr, hdir⟩ := hd.exists_dir rfl
        obtain ⟨es, hes⟩ := Os.Linked.view_eq_dir.1 hdir
        rw [List.dropLast_concat, Os.Linked.follow_eq_ok.2 hr]
        dsimp only [bind, Except.bind]
        rw [hes]
        have hrest := hr.rest hd
        cases hrest with
        | step _ _ hdone =>
          cases hdone
          exact .inl (by rw [Filepath.descend_plain hc])
        | jump _ hlink _ =>
          rw [Filepath.descend_plain hc] at hlink
          exact .inr ⟨_, _, rfl, Os.Linked.view_eq_link.1 hlink⟩
      · exact .inl h.place
  rw [Disk.lstat]
  rcases hname with hd | ⟨p, text, hp, hlink⟩
  · rw [hd]
    dsimp only [bind, Except.bind]
    rw [h.dir]
    exact .inl rfl
  · rw [hp]
    dsimp only [bind, Except.bind]
    rw [hlink]
    exact .inr ⟨text, rfl⟩

/-- Of a root that is a link nothing is recorded; unless its name is hidden, that is an error. -/
theorem Rooted.scanAll_link (foreignKeys : Bytes → Bool) (t : Tables) {text : Bytes}
    (hlink : disk.lstat rootPath = .ok (.file Os.Linked.linkMode text)) :
    ∃ errs, scanAll foreignKeys disk rootPath t = .ok (none, (t, errs)) ∧
      (errs = [] → t.files.lookup Filepath.dot = none → Merkle.hidden (base rootPath) = true) := by
  have hopen : disk.openFile rootPath = .ok ⟨[], some (.errno .isDir)⟩ := by
    rw [Disk.openFile, h.place]
    dsimp only [bind, Except.bind]
    rw [h.dir]
  obtain ⟨t', errs, heq, hstep, herrs⟩ := scanFile_spec disk foreignKeys
    (v := ⟨rootPath, base rootPath, .file Os.Linked.linkMode text⟩) (rel_self rootPath) t []
  have hnot {p c : Bytes} {n : ℕ} :
      ¬ Due disk rootPath ⟨rootPath, base rootPath, .file Os.Linked.linkMode text⟩ p n c := by
    rintro ⟨-, -, -, hread⟩
    cases hopen.symm.trans hread
  rcases hstep with ⟨-, rfl⟩ | ⟨size, content, hdue, -⟩
  · refine ⟨errs, ?_, fun hnil hrow => ?_⟩
    · rw [scanAll, hlink]
      dsimp only
      rw [Os.walk, heq]
      rfl
    · by_contra hshown
      rcases (herrs hnil).2 ⟨Bool.eq_false_iff.2 hshown, rfl⟩ with ⟨size, content, hdue⟩ | hsome
      · exact hnot hdue
      · exact hsome hrow
  · exact absurd hdue hnot

/-! ### What the scan comes to -/

/-- What is recorded: the files, each with the size of what stands under its name. -/
def Listed (fs : Os.Linked.Fs) (d : List Bytes) (path : Bytes) (size : ℕ) (content : Bytes) :
    Prop :=
  ∃ names mode text, Merkle.Visible names ∧
    (Os.Linked.reach fs.root (d ++ names)).map (Os.Linked.listed fs.inodes) =
      some (.file mode text) ∧
    text.length = size ∧ fs.content (d ++ names) = some content ∧ relative names = path

theorem Rooted.reach_root (names : List Bytes) :
    Os.reach (some (Os.Linked.listed disk.fs.inodes (.dir mode entries))) names =
      (Os.Linked.reach disk.fs.root (d ++ names)).map (Os.Linked.listed disk.fs.inodes) := by
  rw [Os.Linked.reach_append, h.dir, ← Os.Linked.reach_listed, Option.map_some]

theorem Rooted.wf_root : (Os.Linked.listed disk.fs.inodes (.dir mode entries)).WF :=
  Os.Linked.wf_listed (Os.Linked.Fs.wf_of_reach h.wf h.dir).1

omit h in
theorem names_ne_nil {names : List Bytes} {m : UInt32} {text : Bytes}
    (hreach : Os.reach (some (Os.Linked.listed disk.fs.inodes (.dir mode entries))) names =
      some (.file m text)) : names ≠ [] := by
  rintro rfl
  rw [Os.reach_nil] at hreach
  cases hreach

/-- If no error is reported, the records are made that are due. -/
theorem Rooted.dueIn_iff
    (hall : ∀ v ∈ visited rootPath (Os.Linked.listed disk.fs.inodes (.dir mode entries)), Shown v →
      ∃ path size content, Due disk rootPath v path size content) (path : Bytes) (size : ℕ)
    (content : Bytes) :
    DueIn disk rootPath
        (visited rootPath (Os.Linked.listed disk.fs.inodes (.dir mode entries))) path size content ↔
      Merkle.hidden (base rootPath) = false ∧ Listed disk.fs d path size content := by
  have henum := Os.enumerates_visits Merkle.hidden h.wf_root rootPath (base rootPath)
  constructor
  · rintro ⟨v, hv, hname, ⟨m, text, hentry, hsize⟩, hpath, hread⟩
    obtain ⟨names, hseen⟩ := henum.mem_iff.1 hv
    obtain ⟨hbase, hvisible⟩ := List.forall_mem_cons.1 ((visible_of_seen hseen).1 hname)
    have hreach := hseen.reached
    rw [hentry] at hreach
    have hplain := Os.plain_of_reach h.wf_root hreach
    have hne := names_ne_nil hreach
    rw [rel_of_seen h.ne_nil h.wf_root hseen, if_neg hne] at hpath
    rw [hseen.path_eq] at hread
    rw [h.reach_root] at hreach
    exact ⟨hbase, names, m, text, hvisible, hreach, hsize, h.content_of_open hplain hne hread,
      Option.some.inj hpath⟩
  · rintro ⟨hbase, names, m, text, hvisible, hreach, hsize, hcontent, rfl⟩
    rw [← h.reach_root] at hreach
    have hplain := Os.plain_of_reach h.wf_root hreach
    have hne := names_ne_nil hreach
    have hshown : Merkle.Visible (base rootPath :: names) :=
      List.forall_mem_cons.2 ⟨hbase, hvisible⟩
    have hseen : Os.Seen Merkle.hidden rootPath (base rootPath)
        (Os.Linked.listed disk.fs.inodes (.dir mode entries)) names
        ⟨pathOf rootPath names, (base rootPath :: names).getLast (by simp), .file m text⟩ :=
      ⟨fun n hn => hshown n (List.dropLast_subset _ hn), hreach, rfl,
        List.getLast?_eq_some_getLast _⟩
    have hrel := rel_of_seen h.ne_nil h.wf_root hseen
    rw [if_neg hne] at hrel
    have hv := henum.mem_iff.2 ⟨names, hseen⟩
    obtain ⟨path, n, content', hdue⟩ := hall _ hv ⟨(visible_of_seen hseen).2 hshown, rfl⟩
    obtain ⟨hname, ⟨m', text', hentry, rfl⟩, hpath, hread⟩ := hdue
    cases hentry
    cases hcontent.symm.trans (h.content_of_open hplain hne hread)
    exact ⟨_, hv, hname, ⟨_, _, rfl, hsize⟩, hrel, hread⟩

/-- What is read under names below the directory is the file there, or what a link leads to. -/
theorem Rooted.listed_of_content {names : List Bytes} {e : Os.Linked.Entry} {content : Bytes}
    (hreach : Os.Linked.reach disk.fs.root (d ++ names) = some e)
    (hcontent : disk.fs.content (d ++ names) = some content) :
    (∃ m, Os.Linked.listed disk.fs.inodes e = .file m content) ∨ ∃ text, e = .link text := by
  have hfind (he : e.Proper) : disk.fs.lookup (d ++ names) = .ok e := by
    have hfrom : Os.Linked.reach disk.fs.root ([] ++ (d ++ names)) = some e := hreach
    have hleads := Os.Linked.leads_of_reach (n := maxLinks)
      (Os.Linked.Fs.wf_of_reach h.wf hreach).2 hfrom he
    exact Os.Linked.Fs.lookup_eq_ok.2 ⟨_, Os.Linked.Fs.place_eq_ok.2 hleads, hreach⟩
  obtain ⟨ino, hino, rfl⟩ :=
    Os.Linked.Fs.read_eq_ok.1 (Os.Linked.Fs.content_eq_some.1 hcontent)
  cases e with
  | file i =>
    cases (hfind trivial).symm.trans hino
    exact .inl ⟨_, rfl⟩
  | link text => exact .inr ⟨text, rfl⟩
  | dir m es => cases (hfind trivial).symm.trans hino

theorem Rooted.files_iff {path content : Bytes} :
    Files disk.fs d path content ↔ ∃ size, Listed disk.fs d path size content := by
  constructor
  · rintro ⟨names, hvisible, hsome, hcontent, hpath⟩
    obtain ⟨e, he⟩ := Option.ne_none_iff_exists'.1 hsome
    obtain ⟨m, text, hfile⟩ : ∃ m text, Os.Linked.listed disk.fs.inodes e = .file m text := by
      rcases h.listed_of_content he hcontent with ⟨m, hm⟩ | ⟨text, rfl⟩
      · exact ⟨m, content, hm⟩
      · exact ⟨_, text, rfl⟩
    exact ⟨_, names, m, text, hvisible, by rw [he, Option.map_some, hfile], rfl, hcontent, hpath⟩
  · rintro ⟨size, names, m, text, hvisible, hreach, -, hcontent, hpath⟩
    refine ⟨names, hvisible, fun hnone => ?_, hcontent, hpath⟩
    rw [hnone] at hreach
    cases hreach

/-- The size of what stands there is that of the content, except of a link. -/
theorem Rooted.size_iff :
    (∀ path size content, Listed disk.fs d path size content → size = content.length) ↔
      ∀ names text content, Merkle.Visible names →
        Os.Linked.reach disk.fs.root (d ++ names) = some (.link text) →
        disk.fs.content (d ++ names) = some content → text.length = content.length := by
  constructor
  · intro hsize names text content hvisible hlink hcontent
    exact hsize _ _ content ⟨names, _, text, hvisible, by rw [hlink]; rfl, rfl, hcontent, rfl⟩
  · rintro hlinks path size content ⟨names, m, text, hvisible, hreach, rfl, hcontent, -⟩
    obtain ⟨e, he, hfile⟩ := Option.map_eq_some_iff.1 hreach
    rcases h.listed_of_content he hcontent with ⟨m', hm'⟩ | ⟨text', rfl⟩
    · cases hfile.symm.trans hm'
      rfl
    · cases hfile
      exact hlinks names text content hvisible he hcontent

/-- If what stands there is recorded, the files are if their sizes are. -/
theorem Rooted.covers_iff {s : Db.State Unit} (hs : Scanned (Listed disk.fs d) s) :
    Covers (Files disk.fs d) s.tables ↔
      ∀ path size content, Listed disk.fs d path size content → size = content.length := by
  constructor
  · intro hcovers path size content hlisted
    obtain ⟨row, hrow, hsize, -⟩ := hs.holds hlisted
    obtain ⟨row', hrow', hsize', -⟩ := hcovers.complete path content (h.files_iff.2 ⟨size, hlisted⟩)
    cases hrow.symm.trans hrow'
    exact Int.ofNat.inj (hsize.symm.trans hsize')
  · intro hsizes
    refine ⟨fun path content hfile => ?_, fun path row hrow => ?_⟩
    · obtain ⟨size, hlisted⟩ := h.files_iff.1 hfile
      obtain ⟨row, hrow, hsize, hholds⟩ := hs.holds hlisted
      exact ⟨row, hrow, hsizes _ _ _ hlisted ▸ hsize, hholds⟩
    · obtain ⟨size, content, hlisted⟩ := hs.sound path row hrow
      exact ⟨content, h.files_iff.2 ⟨size, hlisted⟩⟩

/-- If nothing is recorded, the files are if there are none. -/
theorem Rooted.covers_iff_of_none {t : Tables} (ht : ∀ path, t.files.lookup path = none) :
    Covers (Files disk.fs d) t ↔ (∀ path content, ¬ Files disk.fs d path content) ∧
      ∀ names text content, Merkle.Visible names →
        Os.Linked.reach disk.fs.root (d ++ names) = some (.link text) →
        disk.fs.content (d ++ names) = some content → text.length = content.length := by
  constructor
  · intro hcovers
    have hnone : ∀ path content, ¬ Files disk.fs d path content := by
      intro path content hfile
      obtain ⟨row, hrow, -⟩ := hcovers.complete path content hfile
      cases (ht path).symm.trans hrow
    refine ⟨hnone, h.size_iff.1 fun path size content hlisted => ?_⟩
    exact absurd (h.files_iff.2 ⟨size, hlisted⟩) (hnone path content)
  · rintro ⟨hnone, -⟩
    exact ⟨fun path content hfile => absurd hfile (hnone path content),
      fun path row hrow => by cases (ht path).symm.trans hrow⟩

end Rooted

/-- In `/d` a file `a`, and a link `b` to it; the working directory is `/d`. -/
def workDir (content : Bytes) : Disk where
  fs :=
    { root := some (.dir 0o755 [([100], .dir 0o755 [([97], .file 0), ([98], .link [97])])])
      inodes := fun _ => .ofMode 0o644 content
      next := 1 }
  cwd := [[100]]
  modTime _ := 0

theorem rooted_workDir (content : Bytes) :
    Rooted (workDir content) [47, 100] [[100]] 0o755 [([97], .file 0), ([98], .link [97])] where
  wf := by
    change Os.Linked.Fs.WF ⟨some (.dir 0o755 [([100], .dir 0o755 [([97], .file 0),
      ([98], .link [97])])]), fun _ => ⟨0, [], by decide⟩, 0⟩
    decide
  ne_nil := by decide
  place := rfl
  clean := rfl
  dir := rfl

theorem link_workDir {content text : Bytes} {names : List Bytes}
    (h : Os.Linked.reach (workDir content).fs.root ([[100]] ++ names) = some (.link text)) :
    names = [[98]] ∧ text = [97] := by
  rcases names with _ | ⟨c, rest⟩
  · cases h
  · change Os.Linked.reach ([([97], Os.Linked.Entry.file 0), ([98], .link [97])].lookup c) rest =
      some (.link text) at h
    rw [List.lookup_cons, List.lookup_cons] at h
    cases hc : c == [97] with
    | true =>
      rw [hc] at h
      cases rest <;> cases h
    | false =>
      rw [hc] at h
      cases hc' : c == [98] with
      | true =>
        rw [hc'] at h
        obtain rfl := eq_of_beq hc'
        cases rest <;> cases h
        exact ⟨rfl, rfl⟩
      | false =>
        rw [hc'] at h
        cases rest <;> cases h

end FileSync.Watcher
