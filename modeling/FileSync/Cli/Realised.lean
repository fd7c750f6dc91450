import FileSync.Cli.Interrupted
import FileSync.Cli.Manifest

/-!
# Cli — what a reconstruction realises

A reconstruction that returns no error has created every directory of the manifest and written every
file with chunks (`reconstructFilesRecursive` in `cmd/p2p-file-sync/main.go`).  It skips a file
without chunks: the file is not created, and one that is there is not emptied.  Where the paths of
two nodes lead to one file, by links that were there, the file has the content of the one visited
last.

* `Fills`: a node with chunks and the file that its path leads to.
* `realised_iff`: the manifest is realised just when the nodes of each file have one content, and
  those without chunks an empty one.
-/

open Filepath

namespace FileSync.Cli

open Proto (ManifestNode Request Exchange)
open Cas (BlobStore)
open Os.Linked (Fs)
open Sha256 (sum256)

/-- Below the directory stands what the manifest has: its directories, and its files with the
contents of their chunks. -/
structure Realised (baseDir : Bytes) (blob : Bytes → Option Bytes) (root : ManifestNode)
    (fs : Fs) : Prop where
  dirs : ∀ q n, root.At q n → n.isDir = true →
    ∃ m es, fs.lookup (resolve baseDir ++ q) = .ok (.dir m es)
  files : ∀ q n, root.At q n → n.isDir = false →
    fs.content (resolve baseDir ++ q) = some (contents blob n.chunks)

/-- The node at `q` has chunks, and its path leads to the file. -/
structure Fills (baseDir : Bytes) (root : ManifestNode) (fs : Fs) (q : List Bytes)
    (n : ManifestNode) (ino : ℕ) : Prop where
  node : root.At q n
  isFile : n.isDir = false
  chunks : n.chunks ≠ []
  leads : fs.lookup (resolve baseDir ++ q) = .ok (.file ino)

/-- What a manifest needs of the file system before and after: nodes for one file have one content,
and the file of a node without chunks is empty before, and stays so. -/
structure Realisable (baseDir : Bytes) (blob : Bytes → Option Bytes) (root : ManifestNode)
    (fs fs' : Fs) : Prop where
  shared : ∀ ino q n q' n', Fills baseDir root fs' q n ino → Fills baseDir root fs' q' n' ino →
    contents blob n.chunks = contents blob n'.chunks
  empty : ∀ q n, root.At q n → n.isDir = false → n.chunks = [] →
    ∃ ino, fs'.lookup (resolve baseDir ++ q) = .ok (.file ino) ∧
      (∀ q' n', Fills baseDir root fs' q' n' ino → contents blob n'.chunks = []) ∧
      ((∀ q' n', ¬ Fills baseDir root fs' q' n' ino) → (fs.inodes ino).content = [])
  base : root.children = [] → ∃ m es, fs.lookup (resolve baseDir) = .ok (.dir m es)

section Realisation

variable {ν : Type} {peer : Request → ν → Exchange × ν} {w w' : LinkedWorld ν} {baseDir : Bytes}
  {store : BlobStore} {root : ManifestNode} {blob : Bytes → Option Bytes}

theorem Advertised.ne_nil (hroot : Advertised root) {q : List Bytes} {n : ManifestNode}
    (hn : root.At q n) (hfile : n.isDir = false) : q ≠ [] := by
  rintro rfl
  rw [Proto.ManifestNode.at_nil.1 hn, hroot.isDir] at hfile
  cases hfile

/-- The nodes with chunks for a file are the visits that write to it. -/
theorem fills_iff_visit (hb : isAbs baseDir) (hroot : Advertised root) {fs : Fs} {n : ManifestNode}
    {ino : ℕ} : (∃ q, Fills baseDir root fs q n ino) ↔
      ∃ v ∈ visits (some root), v.node = n ∧ v.Writes ∧
        fs.At (v.target baseDir) (.file ino) := by
  constructor
  · rintro ⟨q, hq⟩
    obtain ⟨v, hv, rfl, htarget⟩ :=
      exists_visit hb hroot.orderly (hroot.ne_nil hq.node hq.isFile) hq.node
    exact ⟨v, hv, rfl, ⟨hq.isFile, hq.chunks⟩, htarget ▸ Fs.lookup_eq_file.1 hq.leads⟩
  · rintro ⟨v, hv, rfl, hw, hat⟩
    obtain ⟨q, -, hq, htarget⟩ := at_of_mem_visits hb hroot.orderly hv
    exact ⟨q, hq, hw.1, hw.2, htarget ▸ Fs.lookup_eq_file.2 hat⟩

/-- What a file holds that nodes with chunks are for. -/
theorem Done.fills (hb : isAbs baseDir) (hroot : Advertised root) {fs fs' : Fs}
    (h : Done baseDir blob (visits (some root)) fs fs') {q : List Bytes} {n : ManifestNode}
    {ino : ℕ} (hn : Fills baseDir root fs' q n ino) :
    ∃ q' n', Fills baseDir root fs' q' n' ino ∧
      (fs'.inodes ino).content = contents blob n'.chunks := by
  obtain ⟨v, hv, -, hw, hat⟩ := (fills_iff_visit hb hroot).1 ⟨q, hn⟩
  obtain ⟨u, hu, huw, huat, hcontent⟩ := h.written ino ⟨v, hv, hw, hat⟩
  obtain ⟨q', hq'⟩ := (fills_iff_visit hb hroot).2 ⟨u, hu, rfl, huw, huat⟩
  exact ⟨q', u.node, hq', hcontent.trans (assembled_complete (h.files u hu huw).1).1⟩

/-- And one that they are not for. -/
theorem Done.spared (hb : isAbs baseDir) (hroot : Advertised root) {fs fs' : Fs}
    (h : Done baseDir blob (visits (some root)) fs fs') {ino : ℕ}
    (hnone : ∀ q n, ¬ Fills baseDir root fs' q n ino) :
    (fs'.inodes ino).content = (fs.inodes ino).content := by
  refine h.others ino fun v hv hw hat => ?_
  obtain ⟨q, hq⟩ := (fills_iff_visit hb hroot).2 ⟨v, hv, rfl, hw, hat⟩
  exact hnone q v.node hq

/-- The files, where the nodes of each have one content. -/
theorem Done.files_of_realisable (hb : isAbs baseDir) (hroot : Advertised root) {fs fs' : Fs}
    (h : Done baseDir blob (visits (some root)) fs fs')
    (hreal : Realisable baseDir blob root fs fs') {q : List Bytes} {n : ManifestNode}
    (hn : root.At q n) (hfile : n.isDir = false) :
    fs'.content (resolve baseDir ++ q) = some (contents blob n.chunks) := by
  by_cases hchunks : n.chunks = []
  · obtain ⟨ino, hl, hfill, hnone⟩ := hreal.empty q n hn hfile hchunks
    rw [Fs.content_of_at (Fs.lookup_eq_file.1 hl), hchunks]
    by_cases hex : ∃ q' n', Fills baseDir root fs' q' n' ino
    · obtain ⟨q', n', hn'⟩ := hex
      obtain ⟨q'', n'', hn'', hcontent⟩ := h.fills hb hroot hn'
      rw [hcontent, hfill q'' n'' hn'']
      rfl
    · push Not at hex
      rw [h.spared hb hroot hex, hnone hex]
      rfl
  · obtain ⟨v, hv, rfl, htarget⟩ := exists_visit hb hroot.orderly (hroot.ne_nil hn hfile) hn
    obtain ⟨-, ino, hat⟩ := h.files v hv ⟨hfile, hchunks⟩
    have hfills : Fills baseDir root fs' q v.node ino :=
      ⟨hn, hfile, hchunks, htarget ▸ Fs.lookup_eq_file.2 hat⟩
    obtain ⟨q', n', hn', hcontent⟩ := h.fills hb hroot hfills
    rw [Fs.content_of_at (Fs.lookup_eq_file.1 hfills.leads), hcontent,
      hreal.shared ino q' n' q v.node hn' hfills]

end Realisation

/-! ### Files of one directory -/

/-- The manifest of a directory `d` with these files. -/
def filesRoot (files : List (Bytes × Bytes)) : ManifestNode :=
  convertTreeToManifest
    (Merkle.buildNode [100] (.dir 0o755 (files.map fun f => (f.1, .file 0o644 f.2))))

theorem advertised_filesRoot {files : List (Bytes × Bytes)} (hplain : ∀ f ∈ files, Plain f.1)
    (hnames : (files.map Prod.fst).Nodup) : Advertised (filesRoot files) := by
  have hdir : (Os.Entry.dir 0o755
      (files.map fun f => (f.1, Os.Entry.file 0o644 f.2))).WF := by
    refine .dir _ ((List.map_map ..).symm ▸ hnames) ?_ ?_
    all_goals
      intro x hx
      obtain ⟨f, hf, rfl⟩ := List.mem_map.1 hx
    · exact hplain f hf
    · exact .file _ _
  have hplain' : Plain [100] := by decide
  refine advertised_of_reach (some (.dir 0o755 [([100], _)])) [47, 100] (Os.wf_some.2 ?_) rfl
  exact .dir _ (by simp) (List.forall_mem_singleton.2 hplain') (List.forall_mem_singleton.2 hdir)

/-- The node of a file. -/
def fileNode (f : Bytes × Bytes) : ManifestNode :=
  convertTreeToManifest (Merkle.buildNode f.1 (.file 0o644 f.2))

theorem at_filesRoot {files : List (Bytes × Bytes)} {q : List Bytes} {n : ManifestNode}
    (h : (filesRoot files).At q n) (hq : q ≠ []) : ∃ f ∈ files, q = [f.1] ∧ n = fileNode f := by
  rcases h with _ | ⟨hc, hn⟩
  · exact absurd rfl hq
  · obtain ⟨x, hx, -, rfl⟩ := mem_children_buildNode.1 hc
    obtain ⟨f, hf, rfl⟩ := List.mem_map.1 hx
    rcases hn with _ | ⟨hc', -⟩
    · exact ⟨f, hf, by simp [Merkle.name_buildNode], rfl⟩
    · rw [children_buildNode_file] at hc'
      cases hc'

/-- A blob in the directory of a store. -/
def blobEntry (c : Bytes) (ino : ℕ) : Bytes × Os.Linked.Entry :=
  (Hex.encode ((sum256 c).bytes.take 1),
    .dir 0o700 [(Hex.encode ((sum256 c).bytes.drop 1), .file ino)])

/-- In `/d` a file `a`, a link `b` to it and these entries, and in `/s` the chunks `[7]` and
`[8]`. -/
def pairFs (es : List (Bytes × Os.Linked.Entry)) : Fs where
  root := some (.dir 0o755 [
    ([100], .dir 0o755 (([97], .file 0) :: ([98], .link [97]) :: es)),
    ([115], .dir 0o700 [blobEntry [8] 3, blobEntry [7] 2])])
  inodes ino := .ofMode 0o644 ([[5], [], [7], [8]].getD ino [])
  next := 4

def pairWorld (es : List (Bytes × Os.Linked.Entry)) : LinkedWorld (List Exchange) :=
  ⟨pairFs es, 0o022, []⟩

/-- The world after a reconstruction of these files in `/d`, from the store in `/s`. -/
def rebuiltPair (es : List (Bytes × Os.Linked.Entry)) (files : List (Bytes × Bytes)) :=
  (reconstructFiles [47, 100] (some (filesRoot files)) ⟨[47, 115]⟩).run (handleLinked scripted)
    (pairWorld es)

/-- The files `a` and `b` with one content, and an empty `e`. -/
def equalFiles : List (Bytes × Bytes) := [([97], [7]), ([98], [7]), ([101], [])]

theorem advertised_equalFiles : Advertised (filesRoot equalFiles) :=
  advertised_filesRoot (by decide) (by decide)

/-- An empty file `e` besides. -/
def emptyE : List (Bytes × Os.Linked.Entry) := [([101], .file 1)]

theorem grounds_equalFiles :
    Grounds [47, 100] ⟨[47, 115]⟩ (some (filesRoot equalFiles))
      (Prog.answers (handleLinked scripted)) (pairWorld emptyE) := by
  have hnode {v : Visit} (hv : v ∈ visits (some (filesRoot equalFiles))) :
      ∃ f ∈ equalFiles, v.target [47, 100] = [[100], f.1] ∧ v.node = fileNode f := by
    obtain ⟨q, hne, hq, htarget⟩ :=
      at_of_mem_visits (by decide : isAbs [47, 100]) advertised_equalFiles.orderly hv
    obtain ⟨f, hf, rfl, hnode⟩ := at_filesRoot hq hne
    exact ⟨f, hf, htarget, hnode⟩
  refine grounds_of_files (fun _ _ _ _ => unsteady_of_answers) ⟨by decide, by decide⟩
    ⟨by decide, by decide⟩ (Fs.numbered_of_numbers (by decide +kernel)) ⟨0o755, by decide +kernel⟩
    (I := {0}) (fun v hv hw => ?_) fun v hv hash hhash => ?_
  · obtain ⟨f, hf, htarget, hv'⟩ := hnode hv
    have hzero : ∀ f ∈ equalFiles, (fileNode f).chunks ≠ [] →
        (pairFs emptyE).At [[100], f.1] (.file 0) := by
      decide +kernel
    exact ⟨0, by simp, htarget ▸ hzero f hf (hv' ▸ hw.2)⟩
  · obtain ⟨f, hf, -, hv'⟩ := hnode hv
    have htwo : ∀ f ∈ equalFiles, ∀ hash ∈ (fileNode f).chunks,
        (pairFs emptyE).At (BlobStore.place ⟨[47, 115]⟩ hash) (.file 2) := by
      decide +kernel
    exact ⟨2, by simp, htwo f hf hash (hv' ▸ hhash)⟩

end FileSync.Cli
