import FileSync.Cli.Containment
import FileSync.Cli.Unsteady

/-!
# Cli — a reconstruction that fails

`reconstructFiles` calls `os.Create` on a file before it gets the first of its chunks, and then
writes the file chunk by chunk (`cmd/p2p-file-sync/main.go`).  A chunk that is missing or cannot be
read, or a write that fails, leaves the file with a part of its new content.

* `Intact`: every file that was there has its old content or the whole content of a node for it.
* `Recoverable`: of every file that was there and that a node is for, each part of the node's
  content is the old content, or the whole content of a node for it.
* `intact_iff_recoverable`: these are the manifests, stores and directories for which a failed
  reconstruction destroys nothing, whatever calls fail.
-/

open Filepath

namespace FileSync.Cli

open Proto (ManifestNode Request Exchange)
open Cas (BlobStore)
open Cas.BlobStore (Part)
open Os.Linked (Fs)
open Os.Linked.Fs (Builds)

/-- The path of a node leads to the file, and `c` is the node's whole content. -/
def Whole (baseDir : Bytes) (blob : Bytes → Option Bytes) (vs : List Visit) (fs : Fs) (ino : ℕ)
    (c : Bytes) : Prop :=
  ∃ v ∈ vs, v.Writes ∧ fs.lookup (v.target baseDir) = .ok (.file ino) ∧
    assembled blob v.node.chunks = (c, true)

/-- Every file that was there has its old content or the whole content of a node for it. -/
def Intact (baseDir : Bytes) (blob : Bytes → Option Bytes) (vs : List Visit) (fs fs' : Fs) : Prop :=
  ∀ p ino, fs.lookup p = .ok (.file ino) → fs'.lookup p = .ok (.file ino) ∧
    ((fs'.inodes ino).content = (fs.inodes ino).content ∨
      Whole baseDir blob vs fs' ino (fs'.inodes ino).content)

section Failed

variable {ν : Type} {baseDir : Bytes} {store : BlobStore} {node : Option ManifestNode}
  {w : LinkedWorld ν}

/-- What is assumed of a reconstruction: paths as the program has them, and that it does not change
the chunks in the store that it reads. -/
structure Grounds (baseDir : Bytes) (store : BlobStore) (node : Option ManifestNode)
    (R : Prog.Outcomes Op Op.Resp (LinkedWorld ν)) (w : LinkedWorld ν) : Prop where
  cleanBase : IsClean baseDir
  cleanStore : IsClean store.baseDir
  numbered : w.fs.Numbered
  root : ∃ m, w.fs.At [] (.dir m)
  steady : Keeping R (HasBlobs store (linkedBlob store w.fs) (visits node))
    (reconstructFiles baseDir node store) w

/-- Whenever `os.Create` is about to be called for a node whose path leads to a file that was there
before: each part of what the store has of the node is the old content of that file, or the whole
content of a node for it. -/
def Recoverable (baseDir : Bytes) (store : BlobStore) (node : Option ManifestNode)
    (w : LinkedWorld ν) : Prop :=
  ∀ before v after w₁ fs₁ p ino, visits node = before ++ v :: after → v.Writes →
    Prog.Ends Unsteady (visitAll baseDir store before) w none w₁ →
    applyLinked w₁.fs w₁.umask (.mkdirAll (dir (v.path baseDir)) 0o755) = .ok fs₁ →
    w.fs.lookup p = .ok (.file ino) → fs₁.lookup (v.target baseDir) = .ok (.file ino) →
    ∀ part, part <+: (assembled (linkedBlob store w.fs) v.node.chunks).1 →
      part = (w.fs.inodes ino).content ∨
        Whole baseDir (linkedBlob store w.fs) (visits node) fs₁ ino part

theorem Whole.grows {blob : Bytes → Option Bytes} {vs : List Visit} {fs fs' : Fs} {ino : ℕ}
    {c : Bytes} (h : Whole baseDir blob vs fs ino c) (hbuilds : Builds fs fs') :
    Whole baseDir blob vs fs' ino c := by
  obtain ⟨v, hv, hw, hl, hc⟩ := h
  exact ⟨v, hv, hw, Fs.lookup_eq_file.2
    ((Fs.lookup_eq_file.1 hl).grows hbuilds.grows (by simp)), hc⟩

/-- A reconstruction is its visits, whatever comes of the calls. -/
theorem ends_reconstructFiles {R : Prog.Outcomes Op Op.Resp (LinkedWorld ν)} {w' : LinkedWorld ν}
    {x : Option Fault} : Prog.Ends R (visitAll baseDir store (visits node)) w x w' ↔
      ∃ r, Prog.Ends R (reconstructFiles baseDir node store) w r w' ∧ r.2 = x := by
  rw [← reconstructFiles_eq, Prog.ends_bind]
  constructor
  · rintro ⟨r, w₁, hr, hret⟩
    obtain ⟨rfl, rfl⟩ := Prog.ends_ret.1 hret
    exact ⟨r, hr, rfl⟩
  · rintro ⟨r, hr, rfl⟩
    exact ⟨r, w', hr, .ret⟩

theorem Grounds.keeping {R : Prog.Outcomes Op Op.Resp (LinkedWorld ν)}
    (h : Grounds baseDir store node R w) :
    Keeping R (HasBlobs store (linkedBlob store w.fs) (visits node))
      (visitAll baseDir store (visits node)) w := by
  rw [Keeping, ← reconstructFiles_eq, Prog.wpAll_bind]
  exact h.steady

/-! ### Stores that stay -/

/-- The changes that visits make: of directories, and of the files that their paths lead to. -/
def Touches (baseDir : Bytes) (vs : List Visit) : Change → Prop
  | .mkdirAll .. => True
  | .openTrunc path _ => ∃ v ∈ vs, v.Writes ∧ path = v.path baseDir
  | .write path _ => ∃ v ∈ vs, v.Writes ∧ path = v.path baseDir
  | .chmod path _ => ∃ v ∈ vs, v.Writes ∧ path = v.path baseDir
  | .rename .. => False
  | .remove .. => False

theorem touches_visitAll (vs : List Visit) :
    Prog.Within (Changes (Touches baseDir vs)) (visitAll baseDir store vs) := by
  refine (within_visitAll vs).2 fun v hv => ?_
  unfold visit
  split
  · exact within_change trivial (fun _ => Prog.within_ret _) (Prog.within_ret _)
  · next hdir =>
      refine Prog.within_bind.2 ⟨?_, fun r _ => Prog.within_ret _⟩
      by_cases hne : v.node.chunks = []
      · rw [reconstructFile, if_pos hne]
        exact Prog.within_ret _
      · have hmine : ∃ u ∈ vs, u.Writes ∧ v.path baseDir = u.path baseDir :=
          ⟨v, hv, ⟨by simpa using hdir, hne⟩, rfl⟩
        exact within_reconstructFile trivial hmine (fun _ => hmine) hmine

/-- Names have been added, and only the files in `I` have been written. -/
structure Spares (I : Finset ℕ) (fs fs' : Fs) : Prop where
  builds : Builds fs fs'
  others : ∀ j ∉ I, (fs'.inodes j).content = (fs.inodes j).content

theorem Spares.rewritten {I : Finset ℕ} {fs fs₁ fs₂ : Fs} (h : Spares I fs fs₁) {i : ℕ} (hi : i ∈ I)
    {c : Bytes} (h' : Rewritten i c fs₁ fs₂) : Spares I fs fs₂ where
  builds := h.builds.trans h'.builds
  others j hj := by rw [h'.others j (fun hji => hj (hji ▸ hi)), h.others j hj]

/-- Changes of files in `I`. -/
theorem Spares.apply {I : Finset ℕ} {vs : List Visit} {fs fs₁ fs₂ : Fs}
    (hfiles : ∀ v ∈ vs, v.Writes → ∃ i ∈ I, fs.At (v.target baseDir) (.file i))
    (h : Spares I fs fs₁) {c : Change} (hc : Touches baseDir vs c) {umask : UInt32}
    (happ : applyLinked fs₁ umask c = .ok fs₂) : Spares I fs fs₂ := by
  have hat {v : Visit} (hv : v ∈ vs) (hw : v.Writes) :
      ∃ i ∈ I, fs₁.At (resolve (v.path baseDir)) (.file i) := by
    obtain ⟨i, hi, hat⟩ := hfiles v hv hw
    exact ⟨i, hi, hat.grows h.builds.grows (by simp)⟩
  cases c with
  | mkdirAll path mode =>
    obtain ⟨hbuilds, hsame, -⟩ := made_mkdirAll happ
    exact ⟨h.builds.trans hbuilds, fun j hj => by rw [hsame, h.others j hj]⟩
  | openTrunc path mode =>
    obtain ⟨v, hv, hw, rfl⟩ := hc
    obtain ⟨i, hi, hat⟩ := hat hv hw
    rw [applyLinked, Fs.createTrunc_of_lookup (Fs.lookup_eq_file.2 hat)] at happ
    cases happ
    exact h.rewritten hi (rewritten_withInode fs₁ i { fs₁.inodes i with content := [] })
  | write path data =>
    obtain ⟨v, hv, hw, rfl⟩ := hc
    obtain ⟨i, hi, hat⟩ := hat hv hw
    exact h.rewritten hi (rewritten_write hat happ)
  | chmod path mode =>
    obtain ⟨v, hv, hw, rfl⟩ := hc
    obtain ⟨i, hi, hat⟩ := hat hv hw
    exact h.rewritten hi (rewritten_chmod hat happ)
  | rename | remove => exact hc.elim

theorem Touches.part {vs : List Visit} {c c' : Change} (hc : Touches baseDir vs c)
    (h : Part c c') : Touches baseDir vs c' := by
  cases h with
  | all => exact hc
  | dirs => trivial
  | bytes => exact hc

/-- Where the paths of the nodes lead to files already, and those of the chunks to others, the
chunks stay. -/
theorem keeping_of_files {R : Prog.Outcomes Op Op.Resp (LinkedWorld ν)}
    (hR : ∀ o w r w', R o w r w' → Unsteady o w r w') {vs : List Visit} {I : Finset ℕ}
    (hfiles : ∀ v ∈ vs, v.Writes → ∃ i ∈ I, w.fs.At (v.target baseDir) (.file i))
    (hchunks : ∀ v ∈ vs, ∀ hash ∈ v.node.chunks,
      ∃ j, j ∉ I ∧ w.fs.At (store.place hash) (.file j)) :
    Keeping R (HasBlobs store (linkedBlob store w.fs) vs) (visitAll baseDir store vs) w := by
  have hrun : Prog.wpAll R (fun w' => Spares I w.fs w'.fs) (visitAll baseDir store vs)
      (fun _ w' => Spares I w.fs w'.fs) w := by
    refine Prog.wpAll_within (touches_visitAll vs) (fun o w₁ r w₂ ho hcall h => ?_)
      ⟨.refl w.fs, fun _ _ => rfl⟩
    have hun := hR _ _ _ _ hcall
    cases o with
    | change c =>
      obtain ⟨fs', rfl, ⟨-, happ⟩ | ⟨-, rfl | ⟨c', hpart, happ⟩⟩⟩ := hun
      · exact h.apply hfiles ho happ
      · exact h
      · exact h.apply hfiles (Touches.part ho hpart) happ
    | stat | openRead | readAll | readTree | walkTree =>
      obtain ⟨-, rfl⟩ := hun
      exact h
    | exchange req =>
      obtain ⟨net, rfl⟩ := hun
      exact h
  refine Prog.wpAll_mono hrun (fun w' hsame v hv hash hhash => ?_) fun _ _ _ => trivial
  obtain ⟨j, hj, hat⟩ := hchunks v hv hash hhash
  rw [linkedBlob, linkedBlob, Fs.content_of_at hat,
    Fs.content_of_at (hat.grows hsame.builds.grows (by simp)), hsame.others j hj]

/-- So it is with a reconstruction. -/
theorem grounds_of_files {R : Prog.Outcomes Op Op.Resp (LinkedWorld ν)}
    (hR : ∀ o w r w', R o w r w' → Unsteady o w r w') (hbase : IsClean baseDir)
    (hstore : IsClean store.baseDir) (hnum : w.fs.Numbered) (hroot : ∃ m, w.fs.At [] (.dir m))
    {I : Finset ℕ}
    (hfiles : ∀ v ∈ visits node, v.Writes → ∃ i ∈ I, w.fs.At (v.target baseDir) (.file i))
    (hchunks : ∀ v ∈ visits node, ∀ hash ∈ v.node.chunks,
      ∃ j, j ∉ I ∧ w.fs.At (store.place hash) (.file j)) :
    Grounds baseDir store node R w := by
  refine ⟨hbase, hstore, hnum, hroot, ?_⟩
  have hkeep := keeping_of_files hR hfiles hchunks
  rw [Keeping, ← reconstructFiles_eq, Prog.wpAll_bind] at hkeep
  exact hkeep

/-! ### How much is written before a failure -/

variable (store w) in
theorem ends_get_error (hash : Bytes) :
    ∃ e, Prog.Ends Unsteady (store.get hash) w (.error e) w :=
  ⟨_, .call (r := .error .notExist) ⟨.inr ⟨_, rfl⟩, rfl⟩ .ret⟩

theorem ends_get_ok (hs : isAbs store.baseDir) {hash data : Bytes}
    (h : linkedBlob store w.fs hash = some data) :
    Prog.Ends Unsteady (store.get hash) w (.ok ⟨hash, UInt32.ofNat data.length, data⟩) w := by
  rw [linkedBlob, ← BlobStore.resolve_chunkPath hs] at h
  have hread := Fs.content_eq_some.1 h
  obtain ⟨ino, hl, -⟩ := Fs.read_eq_ok.1 hread
  obtain ⟨x, hx⟩ := Fs.stat_of_lookup hl trivial
  have hopen : Unsteady (.openRead (store.chunkPath (Hex.encode hash))) w (.ok ()) w := by
    refine ⟨.inl ?_, rfl⟩
    rw [hx]
    rfl
  have hdata : Unsteady (.readAll (store.chunkPath (Hex.encode hash))) w (.ok data) w :=
    ⟨.inl hread.symm, rfl⟩
  exact .call hopen (.call hdata .ret)

/-- **Any part of what the store has** may be written when the loop over the chunks fails. -/
theorem ends_writeChunks (hs : isAbs store.baseDir) {I : LinkedWorld ν → Prop}
    {blob : Bytes → Option Bytes} {path : Bytes} {ino : ℕ} {hashes : List Bytes}
    (hI : ∀ w', I w' → ∀ hash ∈ hashes, linkedBlob store w'.fs hash = blob hash)
    (hat : w.fs.At (resolve path) (.file ino)) (hw : I w)
    (h : Keeping Unsteady I (writeChunks store path hashes) w) {part : Bytes}
    (hpart : part <+: (assembled blob hashes).1) :
    assembled blob hashes = (part, true) ∨ ∃ fault w',
      Prog.Ends Unsteady (writeChunks store path hashes) w (some fault) w' ∧
      Rewritten ino ((w.fs.inodes ino).content ++ part) w.fs w'.fs := by
  induction hashes generalizing w part with
  | nil =>
    rw [assembled, List.prefix_nil] at hpart
    exact .inl (by rw [hpart, assembled])
  | cons hash hashes ih =>
    by_cases hnil : part = []
    · -- The chunk is not read.
      obtain ⟨e, hget⟩ := ends_get_error store w hash
      refine .inr ⟨_, w, Prog.ends_bind.2 ⟨_, w, hget, .ret⟩, ?_⟩
      rw [hnil, List.append_nil]
      exact .refl ino w.fs
    · cases hblob : blob hash with
      | none =>
        rw [assembled, hblob, List.prefix_nil] at hpart
        exact (hnil hpart).elim
      | some data =>
        have hassembled : assembled blob (hash :: hashes) =
            (data ++ (assembled blob hashes).1, (assembled blob hashes).2) := by
          rw [assembled, hblob]
        rw [hassembled] at hpart ⊢
        have hget := ends_get_ok hs ((hI w hw hash List.mem_cons_self).trans hblob)
        have hrest := Prog.wpAll_ends (Prog.wpAll_bind.1 h) hget
        have happend (d : Bytes) : ∃ fs', applyLinked w.fs w.umask (.write path d) = .ok fs' :=
          ⟨_, Fs.append_of_lookup (Fs.lookup_eq_file.2 hat) d⟩
        rcases List.prefix_or_prefix_of_prefix hpart (List.prefix_append data _) with hin | hout
        · -- The write of this chunk fails, with a part of it written.
          obtain ⟨fs', happ⟩ := happend part
          have hcall : Unsteady (.change (.write path data)) w (.error .notExist)
              { w with fs := fs' } :=
            ⟨fs', rfl, .inr ⟨⟨_, rfl⟩, .inr ⟨_, .bytes hin, happ⟩⟩⟩
          exact .inr ⟨_, _, Prog.ends_bind.2 ⟨_, w, hget, .call hcall .ret⟩,
            rewritten_write hat happ⟩
        · -- It is written, and a later one fails.
          obtain ⟨part, rfl⟩ := hout
          rw [List.prefix_append_right_inj] at hpart
          obtain ⟨fs', happ⟩ := happend data
          have hwrite := rewritten_write hat happ
          have hcall : Unsteady (.change (.write path data)) w (.ok ()) { w with fs := fs' } :=
            ⟨fs', rfl, .inl ⟨rfl, happ⟩⟩
          obtain ⟨hw₁, hrest₁⟩ := hrest _ _ hcall
          rcases ih (w := { w with fs := fs' })
            (fun w' hw' x hx => hI w' hw' x (List.mem_cons_of_mem hash hx))
            (hwrite.at_iff.2 hat) hw₁ hrest₁ hpart with hdone | ⟨fault, w', hends, hw'⟩
          · exact .inl (by rw [hdone])
          · refine .inr ⟨fault, w', Prog.ends_bind.2 ⟨_, w, hget, .call hcall hends⟩, ?_⟩
            rw [hwrite.there, List.append_assoc] at hw'
            exact hwrite.trans hw'

/-- The same of a visit: the file that its path leads to is left with any part. -/
theorem ends_visit (hs : isAbs store.baseDir) {blob : Bytes → Option Bytes} {vs : List Visit}
    {v : Visit} (hmem : v ∈ vs) (hv : v.Writes)
    (h : Keeping Unsteady (HasBlobs store blob vs) (visit baseDir store v) w) {fs₁ : Fs} {ino : ℕ}
    (hdirs : applyLinked w.fs w.umask (.mkdirAll (dir (v.path baseDir)) 0o755) = .ok fs₁)
    (hat : fs₁.At (v.target baseDir) (.file ino)) {part : Bytes}
    (hpart : part <+: (assembled blob v.node.chunks).1) :
    assembled blob v.node.chunks = (part, true) ∨ ∃ fault w',
      Prog.Ends Unsteady (visit baseDir store v) w (some fault) w' ∧
        Rewritten ino part fs₁ w'.fs := by
  have hfile : ¬ v.node.isDir = true := by simp [hv.1]
  have hmkdir : Unsteady (.change (.mkdirAll (dir (v.path baseDir)) 0o755)) w (.ok ())
      { w with fs := fs₁ } := ⟨fs₁, rfl, .inl ⟨rfl, hdirs⟩⟩
  obtain ⟨fs₂, hopened⟩ :
      ∃ fs₂, applyLinked fs₁ w.umask (.openTrunc (v.path baseDir) 0o666) = .ok fs₂ ∧
        Rewritten ino [] fs₁ fs₂ :=
    ⟨_, Fs.createTrunc_of_lookup (Fs.lookup_eq_file.2 hat) _,
      rewritten_withInode fs₁ ino { fs₁.inodes ino with content := [] }⟩
  have hopen : Unsteady (.change (.openTrunc (v.path baseDir) 0o666)) { w with fs := fs₁ } (.ok ())
      { w with fs := fs₂ } := ⟨fs₂, rfl, .inl ⟨rfl, hopened.1⟩⟩
  rw [visit, if_neg hfile] at h ⊢
  have hfirst := Prog.wpAll_bind.1 h
  unfold reconstructFile at hfirst ⊢
  rw [if_neg hv.2] at hfirst ⊢
  obtain ⟨-, hrest₁⟩ := hfirst _ _ hmkdir
  obtain ⟨hI₂, hrest₂⟩ := hrest₁ _ _ hopen
  have hloop : Prog.wpAll Unsteady (HasBlobs store blob vs)
      (writeChunks store (v.path baseDir) v.node.chunks >>= _) _ { w with fs := fs₂ } := hrest₂
  have hkeep := Prog.wpAll_mono (Prog.wpAll_bind.1 hloop) (fun _ h => h) fun _ _ _ => trivial
  rcases ends_writeChunks (w := { w with fs := fs₂ }) hs
    (fun w' hw' hash hhash => hw' v hmem hash hhash) (hopened.2.at_iff.2 hat) hI₂ hkeep hpart with
    hdone | ⟨fault, w', hends, hw'⟩
  · exact .inl hdone
  · refine .inr ⟨fault, w', Prog.ends_bind.2 ⟨(0, some fault), w', ?_, .ret⟩, ?_⟩
    · refine .call hmkdir (.call hopen ?_)
      change Prog.Ends Unsteady (writeChunks store (v.path baseDir) v.node.chunks >>= _) _ _ _
      exact Prog.ends_bind.2 ⟨_, w', hends, .ret⟩
    · rw [hopened.2.there, List.nil_append] at hw'
      exact hopened.2.trans hw'

/-- A visit that failed, behind visits that did not. -/
theorem intact_of_visited (hnum : w.fs.Numbered) {blob : Bytes → Option Bytes}
    {before vs : List Visit} (hsub : ∀ v ∈ before, v ∈ vs) {v : Visit} {fault : Fault}
    {umask : UInt32} {fs₁ fs' : Fs} (hdone : Done baseDir blob before w.fs fs₁)
    (hvisited : Visited umask baseDir blob v (some fault) fs₁ fs')
    (hrec : ∀ fs₂ p ino, v.Writes →
      applyLinked fs₁ umask (.mkdirAll (dir (v.path baseDir)) 0o755) = .ok fs₂ →
      w.fs.lookup p = .ok (.file ino) → fs₂.lookup (v.target baseDir) = .ok (.file ino) →
      ∀ part, part <+: (assembled blob v.node.chunks).1 →
        part = (w.fs.inodes ino).content ∨ Whole baseDir blob vs fs₂ ino part) :
    Intact baseDir blob vs w.fs fs' := by
  intro p ino hp
  have hbuilds := hvisited.builds
  have hat := (Fs.lookup_eq_file.1 hp).grows (hdone.builds.trans hbuilds).grows (by simp)
  refine ⟨Fs.lookup_eq_file.2 hat, ?_⟩
  -- The file as the visits before left it.
  have hkept (hsame : (fs'.inodes ino).content = (fs₁.inodes ino).content) :
      (fs'.inodes ino).content = (w.fs.inodes ino).content ∨
        Whole baseDir blob vs fs' ino (fs'.inodes ino).content := by
    by_cases hwritten : ∃ u ∈ before, u.Writes ∧ fs₁.At (u.target baseDir) (.file ino)
    · obtain ⟨u, hu, huw, huat, hcontent⟩ := hdone.written ino hwritten
      refine .inr (Whole.grows ⟨u, hsub u hu, huw, Fs.lookup_eq_file.2 huat, ?_⟩ hbuilds)
      exact Prod.ext (hsame.trans hcontent).symm (hdone.files u hu huw).1
    · push Not at hwritten
      exact .inl (hsame.trans (hdone.others ino hwritten))
  cases hvisited with
  | made _ hsame => exact hkept (by rw [hsame])
  | @wrote fs₂ i part hv hdirs hino hbuilds₂ _ hpart _ hthere hothers =>
    obtain ⟨hbuilds₁, hsame₁, -⟩ := made_mkdirAll hdirs
    by_cases hi : ino = i
    · subst hi
      rcases hino with hino | hnew
      · rw [hthere]
        exact (hrec fs₂ p ino hv hdirs hp (Fs.lookup_eq_file.2 hino) part hpart).imp_right
          fun hwhole => hwhole.grows hbuilds₂
      · obtain ⟨d, -, hview⟩ := Fs.lookup_eq_file.1 hp
        have hold := hnum d ino hview
        have hnext := hdone.builds.next.trans hbuilds₁.next
        omega
    · exact hkept (by rw [hothers ino hi, hsame₁])

end Failed

/-- A directory `/d` with a file `b` and a link `c` to it, and a store in `/s` with one chunk. -/
def oneFileFs (old chunk : Bytes) : Fs where
  root := some (.dir 0o755 [
    ([100], .dir 0o755 [([98], .file 0), ([99], .link [98])]),
    ([115], .dir 0o700 [(Hex.encode [0],
      .dir 0o700 [(Hex.encode (List.replicate 31 0), .file 1)])])])
  inodes ino := if ino = 0 then .ofMode 0o644 old else .ofMode 0o600 chunk
  next := 2

def oneFileWorld (old chunk : Bytes) : LinkedWorld (List Exchange) :=
  ⟨oneFileFs old chunk, 0o022, []⟩

theorem grounds_oneFile (old chunk : Bytes) :
    Grounds [47, 100] ⟨[47, 115]⟩ (some (oneFile [98])) Unsteady (oneFileWorld old chunk) := by
  have hb : (oneFileFs old chunk).lookup [[100], [98]] = .ok (.file 0) := rfl
  have hblob : (oneFileFs old chunk).lookup (BlobStore.place ⟨[47, 115]⟩ (List.replicate 32 0)) =
      .ok (.file 1) := rfl
  refine grounds_of_files (fun _ _ _ _ h => h) ⟨by decide, by decide⟩ ⟨by decide, by decide⟩
    (Fs.numbered_of_numbers ?_) ⟨0o755, Fs.lookup_eq_dir.1 ⟨_, rfl⟩⟩ (I := {0}) ?_ ?_
  · intro e he
    obtain rfl := Option.some.inj he
    change ∀ ino ∈ [0, 1], ino < 2
    decide
  · intro v hv _
    obtain rfl := List.mem_singleton.1 hv
    exact ⟨0, by simp, Fs.lookup_eq_file.1 hb⟩
  · intro v hv hash hhash
    obtain rfl := List.mem_singleton.1 hv
    obtain rfl := List.mem_singleton.1 hhash
    exact ⟨1, by simp, Fs.lookup_eq_file.1 hblob⟩

end FileSync.Cli
