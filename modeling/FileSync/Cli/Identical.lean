import FileSync.Os.Names
import FileSync.Os.Rewrite
import FileSync.Cli.Links
import FileSync.Cli.Sync

/-!
# Cli — sync with a peer that has the same directory

The peer's manifest is that of the local directory, and the store has the chunks of its files.  No
chunk is requested and nothing is deleted; but every file with content is emptied and written again
from the store, and gets the mode that the manifest has for it (`reconstructFilesRecursive` in
`cmd/p2p-file-sync/main.go`).  Through a symbolic link this is done to the file that it leads to,
with the mode of the link.

* `run_visitAll`: reconstruction rewrites the files of the visits in turn.
* `sync_identity_iff`: the command changes nothing just when no file with content is also the file
  of one of its chunks in the store, and every link to a file with content has the mode of the file
  or a later name of the file makes up for it.
-/

open Sha256 Filepath

namespace FileSync.Cli

open Proto (ManifestNode Request Exchange)
open Cas (BlobStore chunksOf newBlobStore)
open Merkle (Visible Tree buildNode buildFromFS)
open Os.Linked (Fs Files Rewrite linkMode)

/-! ### Reconstruction -/

/-- The file that a path leads to. -/
def inoOf (fs : Fs) (p : List Bytes) : ℕ :=
  match fs.lookup p with
  | .ok (.file ino) => ino
  | _ => 0

theorem inoOf_eq {fs : Fs} {p : List Bytes} {ino : ℕ} (h : fs.lookup p = .ok (.file ino)) :
    inoOf fs p = ino := by
  rw [inoOf, h]

/-- What a visit of a file with content does to the files. -/
def rewriteOf (fs : Fs) (baseDir : Bytes) (store : BlobStore) (v : Visit) : Rewrite where
  path := v.target baseDir
  ino := inoOf fs (v.target baseDir)
  sources := v.node.chunks.map fun hash => inoOf fs (store.place hash)
  mode := v.node.mode

instance (v : Visit) : Decidable v.Writes := inferInstanceAs (Decidable (_ ∧ _))

/-- The rewrites of the visits of files with content. -/
def rewrites (fs : Fs) (baseDir : Bytes) (store : BlobStore) (vs : List Visit) : List Rewrite :=
  (vs.filter fun v => v.Writes).map (rewriteOf fs baseDir store)

/-- Nothing is missing for a visit: directories are there, and so are the file that is written and
those of its chunks. -/
structure Prepared (fs : Fs) (baseDir : Bytes) (store : BlobStore) (v : Visit) : Prop where
  dir : v.node.isDir = true → ∃ m es, fs.lookup (v.target baseDir) = .ok (.dir m es)
  file : v.Writes → ∃ ino, fs.lookup (v.target baseDir) = .ok (.file ino)
  parent : v.Writes → ∃ m es, fs.lookup (v.target baseDir).dropLast = .ok (.dir m es)
  chunks : ∀ hash ∈ v.node.chunks, ∃ ino, fs.lookup (store.place hash) = .ok (.file ino)

section Run

variable {ν : Type} {peer : Request → ν → Exchange × ν} {w : LinkedWorld ν} {store : BlobStore}

theorem run_get (hs : isAbs store.baseDir) {hash : Bytes} {ino : ℕ}
    (h : w.fs.lookup (store.place hash) = .ok (.file ino)) :
    (store.get hash).run (handleLinked peer) w = (.ok ⟨hash,
      UInt32.ofNat (w.fs.inodes ino).content.length, (w.fs.inodes ino).content⟩, w) := by
  have hstat : ∃ x, w.fs.stat (store.place hash) = .ok x := Fs.stat_of_lookup h trivial
  obtain ⟨x, hx⟩ := hstat
  have hread : w.fs.read (store.place hash) = .ok (w.fs.inodes ino).content :=
    Fs.read_eq_ok.2 ⟨ino, h, rfl⟩
  rw [BlobStore.get, run_openRead, BlobStore.resolve_chunkPath hs, hx]
  change ((Sys.readAll _ >>= _).run _ _) = _
  rw [run_readAll, BlobStore.resolve_chunkPath hs, hread]
  rfl

/-- The contents of the chunks' files are appended in turn. -/
theorem run_writeChunks (hs : isAbs store.baseDir) {path : Bytes} {ino : ℕ}
    (hpath : w.fs.lookup (resolve path) = .ok (.file ino)) {hashes : List Bytes}
    (h : ∀ hash ∈ hashes, ∃ j, w.fs.lookup (store.place hash) = .ok (.file j)) (files : Files) :
    (writeChunks store path hashes).run (handleLinked peer) (w.withFiles files) =
      (none, w.withFiles ((hashes.map fun hash => inoOf w.fs (store.place hash)).foldl
        (Rewrite.copy ino) files)) := by
  induction hashes generalizing files with
  | nil => rfl
  | cons hash hashes ih =>
    rw [List.forall_mem_cons] at h
    obtain ⟨⟨j, hj⟩, hrest⟩ := h
    rw [writeChunks, Prog.run_bind, run_get (w := w.withFiles files) hs hj]
    dsimp only
    rw [run_write hpath, ih hrest]
    rw [List.map_cons, List.foldl_cons, inoOf_eq hj]
    rfl

variable {baseDir : Bytes}

/-- **A visit rewrites its file.** -/
theorem run_reconstructFile (hb : isAbs baseDir) (hs : isAbs store.baseDir) {v : Visit}
    (hv : v.Writes) (h : Prepared w.fs baseDir store v) (files : Files) :
    (reconstructFile store (v.path baseDir) v.node).run (handleLinked peer) (w.withFiles files) =
      ((1, none), w.withFiles (Rewrite.apply files (rewriteOf w.fs baseDir store v))) := by
  obtain ⟨ino, hino⟩ := h.file hv
  obtain ⟨m, es, hparent⟩ := h.parent hv
  rw [← Visit.resolve_dir_path hb] at hparent
  have hwrite : (writeChunks store (v.path baseDir) v.node.chunks).run (handleLinked peer)
      (w.withFiles (Function.update files ino { files ino with content := [] })) = _ :=
    run_writeChunks hs hino h.chunks _
  have hrewrite : (rewriteOf w.fs baseDir store v).ino = ino := inoOf_eq hino
  rw [reconstructFile, if_neg hv.2, run_mkdirAll hparent]
  dsimp only
  rw [run_openTrunc hino]
  dsimp only
  rw [Prog.run_bind, hwrite]
  dsimp only
  rw [Rewrite.apply, Rewrite.write, hrewrite]
  by_cases hmode : v.node.mode ≠ 0
  · have hset : (rewriteOf w.fs baseDir store v).mode ≠ 0 := hmode
    rw [if_pos hmode, if_pos hset, run_chmod hino]
    rfl
  · have hset : ¬ (rewriteOf w.fs baseDir store v).mode ≠ 0 := hmode
    rw [if_neg hmode, if_neg hset]
    rfl

theorem rewrites_cons (fs : Fs) (v : Visit) (vs : List Visit) :
    rewrites fs baseDir store (v :: vs) =
      if v.Writes then rewriteOf fs baseDir store v :: rewrites fs baseDir store vs
      else rewrites fs baseDir store vs := by
  rw [rewrites, List.filter_cons]
  split
  · next h => rw [if_pos (by simpa using h), List.map_cons, rewrites]
  · next h => rw [if_neg (by simpa using h), rewrites]

/-- **Reconstruction rewrites the files of its visits in turn**, and does not fail. -/
theorem run_visitAll (hb : isAbs baseDir) (hs : isAbs store.baseDir) {vs : List Visit}
    (h : ∀ v ∈ vs, Prepared w.fs baseDir store v) (files : Files) :
    (visitAll baseDir store vs).run (handleLinked peer) (w.withFiles files) =
      (none, w.withFiles (Rewrite.applyAll (rewrites w.fs baseDir store vs) files)) := by
  induction vs generalizing files with
  | nil => rfl
  | cons v vs ih =>
    rw [List.forall_mem_cons] at h
    rw [visitAll, Prog.run_bind, rewrites_cons]
    have hskip (hv : ¬ v.Writes) :
        (visit baseDir store v).run (handleLinked peer) (w.withFiles files) =
          (none, w.withFiles files) := by
      rw [visit]
      split
      · next hdir =>
          obtain ⟨m, es, hlookup⟩ := h.1.dir hdir
          rw [run_mkdirAll hlookup]
          rfl
      · next hdir =>
          have hempty : v.node.chunks = [] := by
            by_contra hne
            exact hv ⟨by simpa using hdir, hne⟩
          rw [reconstructFile, if_pos hempty]
          rfl
    by_cases hv : v.Writes
    · rw [if_pos hv, visit, if_neg (by simp [hv.1]), Prog.run_bind,
        run_reconstructFile hb hs hv h.1]
      exact ih h.2 _
    · rw [if_neg hv, hskip hv]
      exact ih h.2 _

end Run

/-! ### The files of a directory -/

/-- `e` is what the last name of the visible path `q` below the directory stands for, be it a
link. -/
def NameAt (fs : Fs) (absDir : Bytes) (q : List Bytes) (e : Os.Linked.Entry) : Prop :=
  ∃ m es, fs.lookup (resolve absDir) = .ok (.dir m es) ∧ Visible q ∧
    Os.Linked.reach (some (.dir m es)) q = some e

/-- The visible path `q` is a name of the file `ino`, or a link that leads to it. -/
def Leads (fs : Fs) (absDir : Bytes) (q : List Bytes) (ino : ℕ) : Prop :=
  (∃ e, NameAt fs absDir q e) ∧ fs.lookup (resolve absDir ++ q) = .ok (.file ino)

/-- The chunks of the files are in the store. -/
def HasChunks (fs : Fs) (absDir : Bytes) : Prop :=
  ∀ q ino, Leads fs absDir q ino → ∀ k ∈ chunksOf (fs.inodes ino).content,
    fs.read ((storeOf absDir).place k.hash) = .ok k.data

section Directory

variable {fs : Fs} {absDir : Bytes} {m : UInt32} {es : List (Bytes × Os.Linked.Entry)}
  {e : Os.Entry}

/-- The directory's names and the tree that is seen of it. -/
structure Directory (fs : Fs) (absDir : Bytes) (m : UInt32) (es : List (Bytes × Os.Linked.Entry))
    (e : Os.Entry) : Prop where
  isAbs : isAbs absDir
  wf : (Os.Linked.Entry.dir m es).WF
  lookup : fs.lookup (resolve absDir) = .ok (.dir m es)
  seen : seen fs (resolve absDir) (.dir m es) = .ok e

/-- The manifest of the directory. -/
abbrev manifestOf (absDir : Bytes) (e : Os.Entry) : ManifestNode :=
  convertTreeToManifest (buildNode (base absDir) e)

theorem Directory.nameAt_iff (h : Directory fs absDir m es e) {q : List Bytes}
    {x : Os.Linked.Entry} : NameAt fs absDir q x ↔
      Visible q ∧ Os.Linked.reach (some (.dir m es)) q = some x := by
  constructor
  · rintro ⟨m', es', hlookup, hx⟩
    cases h.lookup.symm.trans hlookup
    exact hx
  · exact fun hx => ⟨m, es, h.lookup, hx⟩

theorem Directory.orderly (h : Directory fs absDir m es e) : (manifestOf absDir e).Orderly :=
  orderly_buildNode (wf_seen h.wf h.seen) _

/-- **The nodes of the manifest**, by the names of the directory. -/
theorem Directory.at_iff (h : Directory fs absDir m es e) {q : List Bytes} {n : ManifestNode} :
    (manifestOf absDir e).At q n ↔ ∃ x x', NameAt fs absDir q x ∧
      Cli.seen fs (resolve absDir ++ q) x = .ok x' ∧
      n = convertTreeToManifest (buildNode (q.getLastD (base absDir)) x') := by
  rw [at_buildNode_iff (wf_seen h.wf h.seen)]
  constructor
  · rintro ⟨-, x', hx', rfl⟩
    obtain ⟨hvis, x, hx, hseen⟩ := (reach_seen_iff h.seen).1 hx'
    exact ⟨x, x', h.nameAt_iff.2 ⟨hvis, hx⟩, hseen, rfl⟩
  · rintro ⟨x, x', hname, hseen, rfl⟩
    obtain ⟨hvis, hx⟩ := h.nameAt_iff.1 hname
    exact ⟨hvis, x', (reach_seen_iff h.seen).2 ⟨hvis, x, hx, hseen⟩, rfl⟩

/-- Names that end at no link lead where they stand. -/
theorem Directory.lookup_of_nameAt (h : Directory fs absDir m es e) {q : List Bytes}
    {x : Os.Linked.Entry} (hname : NameAt fs absDir q x) (hx : x.Proper) :
    fs.lookup (resolve absDir ++ q) = .ok x := by
  obtain ⟨-, hreach⟩ := h.nameAt_iff.1 hname
  exact Fs.lookup_append h.lookup (Os.Linked.wf_reach h.wf hreach).2 hreach hx

theorem convert_file (name : Bytes) (mode : UInt32) (content : Bytes) :
    (convertTreeToManifest (buildNode name (.file mode content))).isDir = false ∧
      (convertTreeToManifest (buildNode name (.file mode content))).mode = mode ∧
      (convertTreeToManifest (buildNode name (.file mode content))).chunks =
        (chunksOf content).map (·.hash) := by
  rw [buildNode, Merkle.buildFileNode, Merkle.newFileNode, Merkle.Node.computeFileHash,
    convertTreeToManifest]
  exact ⟨rfl, rfl, rfl⟩

theorem convert_dir (name : Bytes) (m : UInt32) (es : List (Bytes × Os.Entry)) :
    (convertTreeToManifest (buildNode name (.dir m es))).isDir = true ∧
      (convertTreeToManifest (buildNode name (.dir m es))).chunks = [] := by
  rw [buildNode, Merkle.newDirNode, Merkle.Node.computeDirHash, convertTreeToManifest]
  exact ⟨rfl, rfl⟩

/-- **A file of the manifest** has the chunks of the file that its path leads to, and the mode of
the name. -/
theorem Directory.file_of_at (h : Directory fs absDir m es e) {q : List Bytes} {n : ManifestNode}
    (hat : (manifestOf absDir e).At q n) (hn : n.isDir = false) :
    ∃ ino, Leads fs absDir q ino ∧
      n.chunks = (chunksOf (fs.inodes ino).content).map (·.hash) ∧
      ((∃ text, NameAt fs absDir q (.link text)) ∧ n.mode = linkMode ∨
        NameAt fs absDir q (.file ino) ∧ n.mode = (fs.inodes ino).mode) := by
  obtain ⟨x, x', hname, hseen, rfl⟩ := h.at_iff.1 hat
  cases x' with
  | file mode c =>
    obtain ⟨-, hmode, hchunks⟩ := convert_file (q.getLastD (base absDir)) mode c
    rcases seen_eq_file hseen with ⟨ino, rfl, rfl, rfl⟩ | ⟨⟨text, rfl⟩, rfl, hread⟩
    · exact ⟨ino, ⟨⟨_, hname⟩, h.lookup_of_nameAt hname trivial⟩, hchunks, .inr ⟨hname, hmode⟩⟩
    · obtain ⟨ino, hlookup, rfl⟩ := Fs.read_eq_ok.1 hread
      exact ⟨ino, ⟨⟨_, hname⟩, hlookup⟩, hchunks, .inl ⟨⟨text, hname⟩, hmode⟩⟩
  | dir m' es' => cases (convert_dir _ m' es').1.symm.trans hn

/-- A path that leads to a file has a node that is a file. -/
theorem Directory.exists_at (h : Directory fs absDir m es e) {q : List Bytes} {ino : ℕ}
    (hl : Leads fs absDir q ino) : ∃ n, (manifestOf absDir e).At q n ∧ n.isDir = false := by
  obtain ⟨⟨x, hname⟩, hlookup⟩ := hl
  cases x with
  | file j =>
    exact ⟨_, h.at_iff.2 ⟨_, _, hname, by rw [Cli.seen], rfl⟩, (convert_file _ _ _).1⟩
  | link text =>
    have hread : fs.read (resolve absDir ++ q) = .ok (fs.inodes ino).content :=
      Fs.read_eq_ok.2 ⟨ino, hlookup, rfl⟩
    refine ⟨_, h.at_iff.2 ⟨_, .file linkMode (fs.inodes ino).content, hname, ?_, rfl⟩,
      (convert_file _ _ _).1⟩
    rw [Cli.seen, hread]
    rfl
  | dir m' es' =>
    cases (h.lookup_of_nameAt hname trivial).symm.trans hlookup

theorem Leads.unique {q : List Bytes} {ino ino' : ℕ} (h : Leads fs absDir q ino)
    (h' : Leads fs absDir q ino') : ino = ino' := by
  cases h.2.symm.trans h'.2
  rfl

/-- **Nothing is missing for the visits of the directory's own manifest.** -/
theorem Directory.prepared (h : Directory fs absDir m es e) (hchunks : HasChunks fs absDir)
    {v : Visit} (hv : v ∈ visits (some (manifestOf absDir e))) :
    Prepared fs absDir (storeOf absDir) v := by
  obtain ⟨q, hq, hat, htarget⟩ := at_of_mem_visits h.isAbs h.orderly hv
  obtain ⟨x, x', hname, hseen, hnode⟩ := h.at_iff.1 hat
  refine ⟨fun hdir => ?_, fun hw => ?_, fun hw => ?_, fun hash hhash => ?_⟩
  · rw [hnode] at hdir
    cases x' with
    | file mode c => cases (convert_file _ mode c).1.symm.trans hdir
    | dir m' es' =>
      obtain ⟨es'', rfl⟩ := seen_eq_dir hseen
      rw [htarget]
      exact ⟨m', es'', h.lookup_of_nameAt hname trivial⟩
  · obtain ⟨ino, hl, -⟩ := h.file_of_at hat hw.1
    rw [htarget]
    exact ⟨ino, hl.2⟩
  · obtain ⟨q, c, rfl⟩ := (List.eq_nil_or_concat q).resolve_left hq
    rw [List.concat_eq_append] at hname htarget
    obtain ⟨hvis, hreach⟩ := h.nameAt_iff.1 hname
    obtain ⟨m', es', hparent⟩ := Os.Linked.reach_parent hreach
    rw [htarget, ← List.append_assoc, List.dropLast_concat]
    refine ⟨m', es', h.lookup_of_nameAt (h.nameAt_iff.2 ⟨?_, hparent⟩) trivial⟩
    exact (List.forall_mem_append.1 hvis).1
  · cases hdir : v.node.isDir with
    | false =>
      obtain ⟨ino, hl, heq, -⟩ := h.file_of_at hat hdir
      rw [heq] at hhash
      obtain ⟨k, hk, rfl⟩ := List.mem_map.1 hhash
      obtain ⟨j, hj, -⟩ := Fs.read_eq_ok.1 (hchunks q ino hl k hk)
      exact ⟨j, hj⟩
    | true =>
      rw [hnode] at hdir hhash
      cases x' with
      | file mode c => cases (convert_file _ mode c).1.symm.trans hdir
      | dir m' es' =>
        rw [(convert_dir _ m' es').2] at hhash
        cases hhash

theorem chunksOf_eq_nil {content : Bytes} : chunksOf content = [] ↔ content = [] := by
  constructor
  · intro h
    rw [chunksOf, List.map_eq_nil_iff] at h
    rw [← Blocks.flatten_blocks (n := Cas.chunkSize) (by decide) content, h, List.flatten_nil]
  · rintro rfl
    rfl

/-- The file that holds a chunk in the store. -/
abbrev blobOf (fs : Fs) (absDir : Bytes) (k : Cas.Chunk) : ℕ :=
  inoOf fs ((storeOf absDir).place k.hash)

/-- What is known of a rewrite: its path leads to its file, which has content; its sources are the
chunks of that content, and its mode that of the name. -/
structure Rewrites (fs : Fs) (absDir : Bytes) (q : List Bytes) (r : Rewrite) : Prop where
  path : r.path = resolve absDir ++ q
  leads : Leads fs absDir q r.ino
  content : (fs.inodes r.ino).content ≠ []
  sources : r.sources = (chunksOf (fs.inodes r.ino).content).map (blobOf fs absDir)
  mode : (∃ text, NameAt fs absDir q (.link text)) ∧ r.mode = linkMode ∨
    NameAt fs absDir q (.file r.ino) ∧ r.mode = (fs.inodes r.ino).mode

/-- The rewrites for the directory's own manifest. -/
abbrev ownRewrites (fs : Fs) (absDir : Bytes) (e : Os.Entry) : List Rewrite :=
  rewrites fs absDir (storeOf absDir) (visits (some (manifestOf absDir e)))

theorem Directory.rewrites_of_mem (h : Directory fs absDir m es e) {r : Rewrite}
    (hr : r ∈ ownRewrites fs absDir e) : ∃ q, Rewrites fs absDir q r := by
  obtain ⟨v, hv, rfl⟩ := List.mem_map.1 hr
  obtain ⟨hv, hw⟩ := List.mem_filter.1 hv
  replace hw : v.Writes := by simpa using hw
  obtain ⟨q, -, hat, htarget⟩ := at_of_mem_visits h.isAbs h.orderly hv
  obtain ⟨ino, hl, hnode, hmode⟩ := h.file_of_at hat hw.1
  have hino : (rewriteOf fs absDir (storeOf absDir) v).ino = ino := by
    rw [rewriteOf, htarget]
    exact inoOf_eq hl.2
  refine ⟨q, htarget, ?_, ?_, ?_, ?_⟩
  · rwa [hino]
  · rw [hino]
    intro hnil
    rw [chunksOf_eq_nil.2 hnil] at hnode
    exact hw.2 hnode
  · rw [hino, rewriteOf]
    dsimp only
    rw [hnode, List.map_map]
    rfl
  · rwa [hino]

/-- Every path to a file with content is rewritten. -/
theorem Directory.exists_rewrite (h : Directory fs absDir m es e) {q : List Bytes} {ino : ℕ}
    (hl : Leads fs absDir q ino) (hne : (fs.inodes ino).content ≠ []) :
    ∃ r ∈ ownRewrites fs absDir e, r.ino = ino ∧ Rewrites fs absDir q r := by
  obtain ⟨n, hat, hfile⟩ := h.exists_at hl
  have hq : q ≠ [] := by
    rintro rfl
    have hlookup := hl.2
    rw [List.append_nil, h.lookup] at hlookup
    cases hlookup
  obtain ⟨v, hv, rfl, htarget⟩ := exists_visit h.isAbs h.orderly hq hat
  obtain ⟨ino', hl', hchunks, -⟩ := h.file_of_at hat hfile
  obtain rfl := hl.unique hl'
  have hw : v.Writes := by
    refine ⟨hfile, fun hnil => hne ?_⟩
    rw [hchunks, List.map_eq_nil_iff] at hnil
    exact chunksOf_eq_nil.1 hnil
  have hr : rewriteOf fs absDir (storeOf absDir) v ∈ ownRewrites fs absDir e :=
    List.mem_map_of_mem (List.mem_filter.2 ⟨hv, by simpa using hw⟩)
  obtain ⟨q', hrewrites⟩ := h.rewrites_of_mem hr
  obtain rfl : q' = q := List.append_cancel_left (hrewrites.path.symm.trans htarget)
  exact ⟨_, hr, hrewrites.leads.unique hl, hrewrites⟩

theorem Directory.pairwise_ownRewrites (h : Directory fs absDir m es e) :
    (ownRewrites fs absDir e).Pairwise fun r r' => r.path < r'.path := by
  refine List.pairwise_map.2 (List.Pairwise.filter _ ?_)
  exact pairwise_visits h.isAbs h.orderly (sorted_buildNode (wf_seen h.wf h.seen) _)

/-- The store has a chunk in the file that its hash leads to. -/
theorem HasChunks.blobOf (hchunks : HasChunks fs absDir) {q : List Bytes} {ino : ℕ}
    (hl : Leads fs absDir q ino) {k : Cas.Chunk} (hk : k ∈ chunksOf (fs.inodes ino).content) :
    fs.lookup ((storeOf absDir).place k.hash) = .ok (.file (blobOf fs absDir k)) ∧
      (fs.inodes (Cli.blobOf fs absDir k)).content = k.data := by
  obtain ⟨j, hj, hdata⟩ := Fs.read_eq_ok.1 (hchunks q ino hl k hk)
  rw [Cli.blobOf, inoOf_eq hj]
  exact ⟨hj, hdata⟩

theorem HasChunks.made (hchunks : HasChunks fs absDir) {q : List Bytes} {r : Rewrite}
    (hr : Rewrites fs absDir q r) : r.Made fs.inodes := by
  have hdata : ((chunksOf (fs.inodes r.ino).content).map fun k =>
      (fs.inodes (Cli.blobOf fs absDir k)).content) =
        Blocks.blocks Cas.chunkSize (fs.inodes r.ino).content := by
    rw [List.map_congr_left fun k hk => (hchunks.blobOf hr.leads hk).2, chunksOf, List.map_map]
    exact List.map_id _
  rw [Rewrite.Made, hr.sources, List.map_map]
  exact (Blocks.flatten_blocks (by decide) _).symm.trans (congrArg List.flatten hdata.symm)

/-- A file that holds a chunk in the store is itself one chunk. -/
theorem HasChunks.sources_eq (hchunks : HasChunks fs absDir) {q q' : List Bytes} {r r' : Rewrite}
    (hr : Rewrites fs absDir q r) (hr' : Rewrites fs absDir q' r') (h : r.ino ∈ r'.sources) :
    r.sources = [r.ino] := by
  rw [hr'.sources] at h
  obtain ⟨k, hk, hino⟩ := List.mem_map.1 h
  obtain ⟨b, hb, rfl⟩ := List.mem_map.1 hk
  have hcontent : (fs.inodes r.ino).content = b := hino ▸ (hchunks.blobOf hr'.leads hk).2
  rw [hr.sources, hcontent, chunksOf, Blocks.blocks_of_mem (by decide) hb, List.map_singleton,
    List.map_singleton, hino]

end Directory

/-! ### When nothing changes -/

/-- No file of the directory is also the file of one of its chunks in the store. -/
def ApartFromStore (fs : Fs) (absDir : Bytes) : Prop :=
  ∀ q ino, Leads fs absDir q ino → ∀ k ∈ chunksOf (fs.inodes ino).content,
    fs.lookup ((storeOf absDir).place k.hash) ≠ .ok (.file ino)

/-- A file with content that a symbolic link leads to has all permissions, as the link, or some
permission and a later name of its own. -/
def LinksRestored (fs : Fs) (absDir : Bytes) : Prop :=
  ∀ q text ino, NameAt fs absDir q (.link text) → Leads fs absDir q ino →
    (fs.inodes ino).content ≠ [] → (fs.inodes ino).mode = 0o777 ∨
      (fs.inodes ino).mode ≠ 0 ∧ ∃ q', q < q' ∧ NameAt fs absDir q' (.file ino)

theorem lt_of_append_lt {p q q' : List Bytes} (h : p ++ q < p ++ q') : q < q' := by
  induction p with
  | nil => exact h
  | cons c p ih =>
    rcases List.cons_lt_cons_iff.1 h with hlt | ⟨-, hlt⟩
    · exact (List.lt_irrefl c hlt).elim
    · exact ih hlt

section Directory

variable {fs : Fs} {absDir : Bytes} {m : UInt32} {es : List (Bytes × Os.Linked.Entry)}
  {e : Os.Entry}

theorem Directory.apart_iff (h : Directory fs absDir m es e) (hchunks : HasChunks fs absDir) :
    ApartFromStore fs absDir ↔ ∀ r ∈ ownRewrites fs absDir e, r.ino ∉ r.sources := by
  constructor
  · intro hapart r hr hmem
    obtain ⟨q, hq⟩ := h.rewrites_of_mem hr
    rw [hq.sources] at hmem
    obtain ⟨k, hk, hino⟩ := List.mem_map.1 hmem
    refine hapart q r.ino hq.leads k hk ?_
    rw [(hchunks.blobOf hq.leads hk).1, hino]
  · intro hno q ino hl k hk hlookup
    have hne : (fs.inodes ino).content ≠ [] := by
      intro hnil
      rw [chunksOf_eq_nil.2 hnil] at hk
      cases hk
    obtain ⟨r, hr, rfl, hq⟩ := h.exists_rewrite hl hne
    refine hno r hr ?_
    rw [hq.sources]
    exact List.mem_map.2 ⟨k, hk, inoOf_eq hlookup⟩

theorem linkMode_bits : linkMode &&& Os.modeBits = 0o777 := by decide

/-- The mode of a regular file is not that of a link. -/
theorem mode_ne_linkMode (f : Os.Linked.Inode) : f.mode ≠ linkMode := by
  intro h
  have hregular := f.regular
  rw [h] at hregular
  exact absurd hregular (by decide)

theorem Directory.restored_iff (h : Directory fs absDir m es e) :
    LinksRestored fs absDir ↔ ∀ r ∈ ownRewrites fs absDir e, r.mode = linkMode →
      Rewrite.Restored (ownRewrites fs absDir e) linkMode fs.inodes r := by
  constructor
  · intro hlinks r hr hmode
    obtain ⟨q, hq⟩ := h.rewrites_of_mem hr
    obtain ⟨⟨text, hname⟩, -⟩ := hq.mode.resolve_right fun hown =>
      mode_ne_linkMode _ (hown.2.symm.trans hmode)
    rcases hlinks q text r.ino hname hq.leads hq.content with hall | ⟨hne, q', hlt, hname'⟩
    · exact .inl (hall.trans linkMode_bits.symm)
    · have hl' : Leads fs absDir q' r.ino :=
        ⟨⟨_, hname'⟩, h.lookup_of_nameAt hname' trivial⟩
      obtain ⟨r', hr', hino, hq'⟩ := h.exists_rewrite hl' hq.content
      refine .inr ⟨hne, r', hr', hino, ?_, ?_⟩
      · rcases hq'.mode with ⟨⟨text', hlink⟩, -⟩ | ⟨-, hown⟩
        · cases (h.nameAt_iff.1 hlink).2.symm.trans (h.nameAt_iff.1 hname').2
        · rw [hown, hino]
      · rw [hq.path, hq'.path]
        exact List.append_left_lt hlt
  · intro hrestored q text ino hname hl hne
    obtain ⟨r, hr, rfl, hq⟩ := h.exists_rewrite hl hne
    have hmode : r.mode = linkMode := by
      rcases hq.mode with ⟨-, hlink⟩ | ⟨hown, -⟩
      · exact hlink
      · cases (h.nameAt_iff.1 hname).2.symm.trans (h.nameAt_iff.1 hown).2
    rcases hrestored r hr hmode with hall | ⟨hzero, r', hr', hino, hmode', hlt⟩
    · exact .inl (hall.trans linkMode_bits)
    · obtain ⟨q', hq'⟩ := h.rewrites_of_mem hr'
      rw [hq.path, hq'.path] at hlt
      obtain ⟨hown, -⟩ := hq'.mode.resolve_left fun hlink =>
        mode_ne_linkMode _ (hmode'.symm.trans hlink.2)
      exact .inr ⟨hzero, q', lt_of_append_lt hlt, hino ▸ hown⟩

/-- **The rewrites leave the files as they are** just when the store is apart and the modes of
links are restored. -/
theorem Directory.applyAll_eq_iff (h : Directory fs absDir m es e)
    (hchunks : HasChunks fs absDir) :
    Rewrite.applyAll (ownRewrites fs absDir e) fs.inodes = fs.inodes ↔
      ApartFromStore fs absDir ∧ LinksRestored fs absDir := by
  rw [h.apart_iff hchunks, h.restored_iff]
  refine Rewrite.applyAll_eq_iff (by decide) (by decide) ?_ ?_ ?_ ?_ h.pairwise_ownRewrites
  · intro r hr
    obtain ⟨q, hq⟩ := h.rewrites_of_mem hr
    exact hchunks.made hq
  · intro r hr
    obtain ⟨q, hq⟩ := h.rewrites_of_mem hr
    exact hq.content
  · intro r hr r' hr'
    obtain ⟨q, hq⟩ := h.rewrites_of_mem hr
    obtain ⟨q', hq'⟩ := h.rewrites_of_mem hr'
    exact hchunks.sources_eq hq hq'
  · intro r hr
    obtain ⟨q, hq⟩ := h.rewrites_of_mem hr
    exact hq.mode.imp And.right And.right

end Directory

/-! ### The command -/

section Command

variable {ν : Type} {peer : Request → ν → Exchange × ν} {w : LinkedWorld ν} {absDir : Bytes}

/-- A `Put` of what the store has. -/
theorem run_put {store : BlobStore} (hs : isAbs store.baseDir) {k : Cas.Chunk}
    (h : ∃ x, w.fs.stat (store.place k.hash) = .ok x) :
    (store.put k).run (handleLinked peer) w = (.ok false, w) := by
  obtain ⟨x, hx⟩ := h
  rw [BlobStore.put, run_stat, Cas.Chunk.hashHex, BlobStore.resolve_chunkPath hs, hx]
  rfl

/-- Without differences the command reconstructs the files, and nothing else. -/
theorem run_applyDiff {store : BlobStore} (root : ManifestNode) {w' : LinkedWorld ν}
    (h : (visitAll absDir store (visits (some root))).run (handleLinked peer) w = (none, w')) :
    ∃ n, (applyDiff absDir store root {}).run (handleLinked peer) w = (.ok n, w') := by
  rw [← reconstructFiles_eq, Prog.run_bind] at h
  obtain ⟨hres, hworld⟩ := Prod.mk.inj h
  rcases hrun : (reconstructFiles absDir (some root) store).run (handleLinked peer) w with
    ⟨⟨n, fault⟩, w''⟩
  rw [hrun] at hres hworld
  obtain rfl : fault = none := hres
  obtain rfl : w'' = w' := hworld
  refine ⟨n, ?_⟩
  rw [applyDiff]
  change (Prog.run _ ((reconstructFiles absDir (some root) store) >>= _) w) = _
  rw [Prog.run_bind, hrun]
  rfl

/-- The peer has the same tree: its manifest is the tree's, and the root it has announced, if any,
is the tree's. -/
structure Identical (peer : Request → ν → Exchange × ν) (net : ν) (remote : Net.Peer) (t : Tree) :
    Prop where
  manifest : manifestReply (peer .manifest net).1 = .ok ⟨t.root.map convertTreeToManifest⟩
  root : remote.merkleRoot = none ∨ remote.merkleRoot = t.root.map (·.hash)

theorem Identical.printsRoots {net : ν} {remote : Net.Peer} {m : UInt32}
    {es : List (Bytes × Os.Entry)}
    (h : Identical peer net remote ⟨some (buildNode (base absDir) (.dir m es))⟩) :
    Cli.printsRoots ⟨some (buildNode (base absDir) (.dir m es))⟩ remote = .ok () := by
  have hlen := le_length_hash_root absDir m es
  refine printsRoots_ok hlen fun root hroot => ?_
  rcases h.root with hnone | hsome
  · rw [hnone] at hroot
    cases hroot
  · rw [hsome] at hroot
    cases hroot
    exact hlen.trans (Allocator.le_cap _)

theorem run_newBlobStore {dir : Bytes} (hdir : dir ≠ []) {m : UInt32}
    {es : List (Bytes × Os.Linked.Entry)} (h : w.fs.lookup (resolve dir) = .ok (.dir m es)) :
    (newBlobStore dir).run (handleLinked peer) w = (.ok ⟨dir⟩, w) := by
  rw [newBlobStore, if_neg hdir]
  change (Prog.run _ (Sys.mkdirAll dir _ >>= _) (w.withFiles w.fs.inodes)) = _
  rw [run_mkdirAll h]
  rfl

variable {m : UInt32} {es : List (Bytes × Os.Linked.Entry)} {e : Os.Entry}

/-- The walks read the tree that is seen. -/
theorem Directory.run_readTree (h : Directory w.fs absDir m es e) {α : Type}
    {k : Except Errno Os.Entry → Cmd α} :
    (Sys.readTree absDir >>= k).run (handleLinked peer) w =
      (k (.ok e)).run (handleLinked peer) w := by
  rw [Cli.run_readTree, h.lookup]
  exact congrArg (fun r => (k r).run (handleLinked peer) w) h.seen

/-- Where the chunks are in the store, the walk puts nothing. -/
theorem Directory.putting (h : Directory w.fs absDir m es e) (hchunks : HasChunks w.fs absDir) :
    Putting (handleLinked peer) (storeOf absDir) (resolve absDir)
      (fun q => ∃ x, NameAt w.fs absDir q x) (fun q => w.fs.content (resolve absDir ++ q))
      (fun k => ∃ x, w.fs.stat ((storeOf absDir).place k.hash) = .ok x) (· = w)
      (fun s _ s' => s' = s) where
  nil _ := rfl
  append _ _ _ _ _ h h' := h'.trans h
  keeps _ _ _ hs hT _ := hT.trans hs
  put s k hs hk := by
    subst hs
    exact ⟨false, s, run_put (isAbs_storageDir h.isAbs) hk, rfl⟩
  chunks q c hname hc k hk := by
    obtain ⟨ino, hlookup, rfl⟩ := Fs.read_eq_ok.1 (Fs.content_eq_some.1 hc)
    exact Fs.stat_of_lookup (hchunks.blobOf ⟨hname, hlookup⟩ hk).1 trivial
  found s q c path hs _ hpath hc := by
    subst hs
    exact answers_of_read (by rwa [hpath])
  lost s q path hs _ hpath hc := by
    subst hs
    exact answers_of_not_read (by rwa [hpath])

theorem Directory.run_indexDirectory (h : Directory w.fs absDir m es e)
    (hchunks : HasChunks w.fs absDir) :
    ((indexDirectory absDir (storeOf absDir)).run (handleLinked peer) w).2 = w := by
  have hplain : ∀ c ∈ resolve absDir, Plain c := fun _ => plain_of_mem_resolve
  obtain ⟨x, hx, hcase⟩ := Fs.lookupName_of_lookup hplain h.lookup
  have hlstat : w.fs.lstat (resolve absDir) = .ok (Os.Linked.listed w.fs.inodes x) := by
    rw [Fs.lstat, hx]
    rfl
  have hwf : x.WF := by
    rcases hcase with rfl | ⟨text, rfl⟩
    · exact h.wf
    · exact .link text
  have hnames (q : List Bytes) (hvis : Visible q) {y : Os.Entry}
      (hy : Os.reach (some (Os.Linked.listed w.fs.inodes x)) q = some y) :
      ∃ y, NameAt w.fs absDir q y := by
    rw [← Option.map_some, Os.Linked.reach_listed, Option.map_eq_some_iff] at hy
    obtain ⟨y, hy, -⟩ := hy
    rcases hcase with rfl | ⟨text, rfl⟩
    · exact ⟨y, h.nameAt_iff.2 ⟨hvis, hy⟩⟩
    · -- The directory is a link to one, and the walk takes it for a file.
      cases q with
      | nil => exact ⟨_, h.nameAt_iff.2 ⟨hvis, rfl⟩⟩
      | cons c q => cases hy
  have hput : Putting (handleLinked peer) _ _ _ _ _ _ _ := h.putting hchunks
  obtain ⟨n, cs, w', hrun, rfl, -⟩ := hput.indexDirectory h.isAbs rfl (s := w) rfl
    (r := .ok (Os.Linked.listed w.fs.inodes x)) (Prod.ext hlstat rfl)
    (fun e he => Except.ok.inj he ▸ Os.Linked.wf_listed hwf)
    (fun e q m' c he hvis hreach => hnames q hvis (Except.ok.inj he ▸ hreach))
  rw [hrun]

/-- **What the command does with a peer that has the same tree**: it completes, makes no other
request than for the manifest, and rewrites the files of the directory. -/
theorem run_syncCmd (ord : Diff.DiffOrder) {remote : Net.Peer} {t : Tree} (habs : isAbs absDir)
    (hwf : w.fs.WF)
    (hstore : ∃ m es, w.fs.lookup (resolve (storageDir absDir)) = .ok (.dir m es))
    (ht : ((buildFromFS absDir).run (handleLinked peer) w).1 = .ok t)
    (hchunks : HasChunks w.fs absDir) (hid : Identical peer w.net remote t) :
    ∃ m es e n, Directory w.fs absDir m es e ∧
      (syncCmd ord (.ok remote) absDir).run (handleLinked peer) w =
        (.ok (.complete n), LinkedWorld.withFiles { w with net := (peer .manifest w.net).2 }
          (Rewrite.applyAll (ownRewrites w.fs absDir e) w.fs.inodes)) := by
  obtain ⟨m, es, es', hlookup, hseen, rfl⟩ := buildFromFS_eq_ok ht
  have hdir : Directory w.fs absDir m es (.dir m es') :=
    ⟨habs, Fs.wf_lookup hwf hlookup, hlookup, hseen⟩
  have hs := isAbs_storageDir habs
  have hne : storageDir absDir ≠ [] := by
    intro hnil
    rw [hnil] at hs
    cases hs
  obtain ⟨m₀, es₀, hstore⟩ := hstore
  obtain ⟨x, hstat⟩ := Fs.stat_of_lookup hstore trivial
  have hvisits : (visitAll absDir (storeOf absDir) (visits (some (manifestOf absDir
      (.dir m es'))))).run (handleLinked peer) { w with net := (peer .manifest w.net).2 } =
        (none, LinkedWorld.withFiles { w with net := (peer .manifest w.net).2 }
          (Rewrite.applyAll (ownRewrites w.fs absDir (.dir m es')) w.fs.inodes)) :=
    run_visitAll (w := { w with net := (peer .manifest w.net).2 }) habs hs
      (fun v hv => hdir.prepared hchunks hv) w.fs.inodes
  obtain ⟨n, hdiff⟩ := run_applyDiff (manifestOf absDir (.dir m es')) hvisits
  have hbuild : (buildFromFS absDir).run (handleLinked peer) w =
      (.ok ⟨some (buildNode (base absDir) (.dir m es'))⟩, w) := by
    rw [buildFromFS, hdir.run_readTree]
    rfl
  have hrequest : requestManifest.run (handleLinked peer) w =
      (.ok ⟨some (manifestOf absDir (.dir m es'))⟩,
        { w with net := (peer .manifest w.net).2 }) := by
    rw [requestManifest, run_exchange, hid.manifest]
    rfl
  refine ⟨m, es, .dir m es', n, hdir, ?_⟩
  rw [syncCmd, run_stat, hstat]
  change (Prog.run _ (newBlobStore _ >>= _) w) = _
  rw [Prog.run_bind, run_newBlobStore hne hstore]
  change (Prog.run _ (indexDirectory absDir (storeOf absDir) >>= _) w) = _
  rw [Prog.run_bind, hdir.run_indexDirectory hchunks]
  change (Prog.run _ (buildFromFS absDir >>= _) w) = _
  rw [Prog.run_bind, hbuild]
  dsimp only
  rw [hid.printsRoots]
  change (Prog.run _ (requestManifest >>= _) w) = _
  rw [Prog.run_bind, hrequest]
  dsimp only [Option.map_some]
  rw [Diff.diffTrees_self]
  dsimp only
  rw [Prog.run_bind, hdiff]
  rfl

/-- **A sync with a peer that has the same directory changes nothing** just when no file of the
directory is also the file of one of its chunks in the store, and every file with content that a
symbolic link leads to has all permissions, or some and a later name of its own. -/
theorem sync_identity_iff (ord : Diff.DiffOrder) {remote : Net.Peer} {t : Tree}
    (habs : isAbs absDir) (hwf : w.fs.WF)
    (hstore : ∃ m es, w.fs.lookup (resolve (storageDir absDir)) = .ok (.dir m es))
    (ht : ((buildFromFS absDir).run (handleLinked peer) w).1 = .ok t)
    (hchunks : HasChunks w.fs absDir) (hid : Identical peer w.net remote t) :
    (∃ n, (syncCmd ord (.ok remote) absDir).run (handleLinked peer) w =
        (.ok (.complete n), { w with net := (peer .manifest w.net).2 })) ↔
      ApartFromStore w.fs absDir ∧ LinksRestored w.fs absDir := by
  obtain ⟨m, es, e, n, hdir, hrun⟩ := run_syncCmd ord habs hwf hstore ht hchunks hid
  rw [← hdir.applyAll_eq_iff hchunks, hrun]
  constructor
  · rintro ⟨k, heq⟩
    exact congrArg (fun r => r.2.fs.inodes) heq
  · intro heq
    refine ⟨n, ?_⟩
    rw [heq]
    rfl

end Command

/-- A directory `/d` with the file `a` and the other names that are given, and with the chunk of
that file in its store. -/
def syncedFs (others : List (Bytes × Os.Linked.Entry)) : Fs where
  root := some (.dir 0o755 [([100], .dir 0o755 (others ++ [([97], .file 0),
    ([46, 115, 116, 111, 114, 97, 103, 101], .dir 0o700 [([99, 104, 117, 110, 107, 115],
      .dir 0o700 [(Hex.encode ((sum256 [7]).bytes.take 1),
        .dir 0o700 [(Hex.encode ((sum256 [7]).bytes.drop 1), .file 1)])])])]))])
  inodes ino := if ino = 0 then .ofMode 0o644 [7] else .ofMode 0o600 [7]
  next := 2

/-- That file system, and a peer with the manifest of what is shown there and of the file `a`. -/
def syncedWorld (others : List (Bytes × Os.Linked.Entry)) (shown : List (Bytes × Os.Entry)) :
    LinkedWorld (List Exchange) where
  fs := syncedFs others
  umask := 0o022
  net := [.ok ⟨.manifestResponse, .ok ⟨some (manifestOf [47, 100]
    (.dir 0o755 (shown ++ [([97], .file 0o644 [7])])))⟩, .error .eof⟩]

theorem content_syncedFs (others : List (Bytes × Os.Linked.Entry)) (ino : ℕ) :
    ((syncedFs others).inodes ino).content = [7] := by
  rw [syncedFs]
  dsimp only
  split <;> rfl

theorem hasChunks_syncedFs {others : List (Bytes × Os.Linked.Entry)}
    (h : (syncedFs others).read ((storeOf [47, 100]).place (Cas.newChunk [7]).hash) = .ok [7]) :
    HasChunks (syncedFs others) [47, 100] := by
  intro q ino _ k hk
  rw [content_syncedFs] at hk
  obtain rfl := List.mem_singleton.1 (show k ∈ [Cas.newChunk [7]] from hk)
  exact h

theorem wf_syncedFs {others : List (Bytes × Os.Linked.Entry)}
    (hnames : (others.map Prod.fst ++
      [[97], [46, 115, 116, 111, 114, 97, 103, 101]]).Nodup)
    (hothers : ∀ x ∈ others, Plain x.1 ∧ x.2.WF) : (syncedFs others).WF := by
  have hblobs : (Os.Linked.Entry.dir 0o700 [(Hex.encode ((sum256 [7]).bytes.take 1),
      .dir 0o700 [(Hex.encode ((sum256 [7]).bytes.drop 1), .file 1)])]).WF :=
    .dir _ (List.nodup_singleton _) (List.forall_mem_singleton.2 (by decide +kernel))
      (List.forall_mem_singleton.2 (.dir _ (List.nodup_singleton _)
        (List.forall_mem_singleton.2 (by decide +kernel))
        (List.forall_mem_singleton.2 (.file 1))))
  intro e he
  obtain rfl := Option.some.inj he
  refine .dir _ (by simp) (List.forall_mem_singleton.2 (show Plain [100] by decide))
    (List.forall_mem_singleton.2 (.dir _ ?_ ?_ ?_))
  · rw [List.map_append]
    exact hnames
  · refine List.forall_mem_append.2 ⟨fun x hx => (hothers x hx).1, ?_⟩
    exact List.forall_mem_cons.2 ⟨by decide, List.forall_mem_singleton.2 (by decide)⟩
  · refine List.forall_mem_append.2 ⟨fun x hx => (hothers x hx).2, ?_⟩
    refine List.forall_mem_cons.2 ⟨.file 0, List.forall_mem_singleton.2 ?_⟩
    exact .dir _ (List.nodup_singleton _) (List.forall_mem_singleton.2 (by decide))
      (List.forall_mem_singleton.2 hblobs)

/-- The names of the directory, without others. -/
theorem nameAt_syncedFs {q : List Bytes} {e : Os.Linked.Entry}
    (h : NameAt (syncedFs []) [47, 100] q e) :
    (q = [] ∧ ∃ m es, e = .dir m es) ∨ (q = [[97]] ∧ e = .file 0) := by
  obtain ⟨m, es, hl, hvis, hreach⟩ := h
  have hdir : (syncedFs []).lookup (resolve [47, 100]) = .ok (.dir 0o755 _) := rfl
  cases hdir.symm.trans hl
  cases q with
  | nil =>
    cases hreach
    exact .inl ⟨rfl, _, _, rfl⟩
  | cons c q =>
    rw [Visible, List.forall_mem_cons] at hvis
    by_cases hc : c = [97]
    · subst hc
      cases q with
      | nil =>
        cases hreach
        exact .inr ⟨rfl, rfl⟩
      | cons d q => cases hreach
    · have hc' : c ≠ [46, 115, 116, 111, 114, 97, 103, 101] := by
        rintro rfl
        cases hvis.1
      rw [Os.Linked.reach, List.nil_append, List.lookup_cons, beq_eq_false_iff_ne.2 hc,
        List.lookup_cons, beq_eq_false_iff_ne.2 hc'] at hreach
      cases q <;> cases hreach

/-- The directory with nothing but the file. -/
theorem sync_identity_one_file :
    ∃ n, (syncCmd (.listed _ _) (.ok ⟨[], none⟩) [47, 100]).run (handleLinked scripted)
      (syncedWorld [] []) = (.ok (.complete n), { syncedWorld [] [] with net := [] }) := by
  refine (sync_identity_iff (w := syncedWorld [] []) _ (by decide)
    (wf_syncedFs (by decide) (by simp)) ⟨_, _, rfl⟩ rfl (hasChunks_syncedFs (by decide +kernel))
    ⟨rfl, .inl rfl⟩).2 ⟨?_, ?_⟩
  · rintro q ino ⟨⟨e, hname⟩, hlookup⟩ k hk hblob
    have hk' : k ∈ chunksOf ((syncedFs []).inodes ino).content := hk
    rw [content_syncedFs] at hk'
    obtain rfl := List.mem_singleton.1 (show k ∈ [Cas.newChunk [7]] from hk')
    have hother : inoOf (syncedFs []) ((storeOf [47, 100]).place (Cas.newChunk [7]).hash) = 1 := by
      decide +kernel
    rcases nameAt_syncedFs hname with ⟨rfl, -⟩ | ⟨rfl, -⟩
    · cases hlookup
    · cases hlookup
      exact absurd (hother.symm.trans (inoOf_eq hblob)) (by decide)
  · intro q text ino hname
    rcases nameAt_syncedFs hname with ⟨-, m, es, he⟩ | ⟨-, he⟩
    · cases he
    · cases he

/-- With a symbolic link `b` to the file `a` the sync gives the file all permissions. -/
theorem linked_file_gets_mode :
    let fs := syncedFs [([98], .link [97])]
    let w := syncedWorld [([98], .link [97])] [([98], .file linkMode [7])]
    fs.WF ∧ (∃ m es, fs.lookup (resolve (storageDir [47, 100])) = .ok (.dir m es)) ∧
      (∃ t, ((buildFromFS [47, 100]).run (handleLinked scripted) w).1 = .ok t ∧
        Identical scripted w.net ⟨[], none⟩ t) ∧
      HasChunks fs [47, 100] ∧ NameAt fs [47, 100] [[97]] (.file 0) ∧
      (fs.inodes 0).mode = 0o644 ∧
      (((syncCmd (.listed _ _) (.ok ⟨[], none⟩) [47, 100]).run (handleLinked scripted)
        w).2.fs.inodes 0).mode = 0o777 := by
  refine ⟨wf_syncedFs (by decide) ?_, ⟨_, _, rfl⟩, ⟨_, rfl, rfl, .inl rfl⟩,
    hasChunks_syncedFs (by decide +kernel), ⟨_, _, rfl, List.forall_mem_singleton.2 rfl, rfl⟩,
    rfl, by decide +kernel⟩
  exact List.forall_mem_singleton.2 ⟨by decide, .link _⟩

end FileSync.Cli
