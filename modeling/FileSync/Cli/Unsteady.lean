import FileSync.Cas.Faults
import FileSync.Cli.LinkedStore
import FileSync.Cli.Reconstruct

/-!
# Cli — reconstruction where files have links and calls fail

What the visits of `reconstructFiles` (`cmd/p2p-file-sync/main.go`) do to a file system with links,
whose calls may fail: a read with any error, a change having done a part of its work.  `os.Create`
follows links, so that a visit writes to whatever file its path leads to.

* `Unsteady`: the outcomes of a call; the answers of `handleLinked` are among them.
* `Visited`: what a visit has made of the file system.  It makes directories and at most one file,
  and writes to at most one file, that to which its path leads: a part of its content if it failed,
  and all of it if it did not.
* `wpAll_visit`: a visit of which this is so, as long as it does not write into the store.
-/

open Filepath

namespace FileSync.Cli

open Proto (ManifestNode Request Exchange)
open Cas (BlobStore Chunk)
open Cas.BlobStore (Part)
open Os.Linked (Fs view)
open Os.Linked.Fs (Builds)

variable {ν : Type}

/-! ### Outcomes -/

/-- A call that reads answers truly or with an error. -/
def Answers {α : Type} (r truth : Except Errno α) : Prop := r = truth ∨ ∃ e, r = .error e

/-- What a change that fails may have done. -/
def LinkedTorn (umask : UInt32) (c : Change) (fs fs' : Fs) : Prop :=
  fs' = fs ∨ ∃ c', Part c c' ∧ applyLinked fs umask c' = .ok fs'

/-- What may come of a call. -/
def Unsteady : Prog.Outcomes Op Op.Resp (LinkedWorld ν)
  | .stat path, w, r, w' => Answers r (w.fs.stat (resolve path)) ∧ w' = w
  | .openRead path, w, r, w' =>
    Answers r ((w.fs.stat (resolve path)).map fun _ => ()) ∧ w' = w
  | .readAll path, w, r, w' => Answers r (w.fs.read (resolve path)) ∧ w' = w
  | .readTree path, w, r, w' =>
    Answers r (do seen w.fs (resolve path) (← w.fs.lookup (resolve path))) ∧ w' = w
  | .walkTree path, w, r, w' => Answers r (w.fs.lstat (resolve path)) ∧ w' = w
  | .change c, w, r, w' => ∃ fs', w' = { w with fs := fs' } ∧
      (r = .ok () ∧ applyLinked w.fs w.umask c = .ok fs' ∨
        (∃ e, r = .error e) ∧ LinkedTorn w.umask c w.fs fs')
  | .exchange _, w, _, w' => ∃ net, w' = { w with net := net }

/-- Calls that do not fail are among the outcomes. -/
theorem unsteady_of_answers {peer : Request → ν → Exchange × ν} {o : Op} {w w' : LinkedWorld ν}
    {r : Op.Resp o} (h : Prog.answers (handleLinked peer) o w r w') : Unsteady o w r w' := by
  cases o with
  | stat | openRead | readAll | readTree | walkTree =>
    cases h
    exact ⟨.inl rfl, rfl⟩
  | change c =>
    simp only [Prog.answers, handleLinked] at h
    cases hc : applyLinked w.fs w.umask c with
    | ok fs' =>
      rw [hc] at h
      cases h
      exact ⟨fs', rfl, .inl ⟨rfl, hc⟩⟩
    | error e =>
      rw [hc] at h
      cases h
      exact ⟨w.fs, rfl, .inr ⟨⟨e, rfl⟩, .inl rfl⟩⟩
  | exchange req =>
    cases h
    exact ⟨_, rfl⟩

/-! ### Rules

`R` are outcomes that `Unsteady` allows.  That a program keeps `I` after every call is what is known
of it, and it is handed on from call to call. -/

section Rules

variable {R : Prog.Outcomes Op Op.Resp (LinkedWorld ν)}
  (hR : ∀ o w r w', R o w r w' → Unsteady o w r w') {I : LinkedWorld ν → Prop}
  {w : LinkedWorld ν} {α : Type}

/-- The program keeps `I`, whatever comes of its calls. -/
def Keeping (R : Prog.Outcomes Op Op.Resp (LinkedWorld ν)) (I : LinkedWorld ν → Prop) (p : Cmd α)
    (w : LinkedWorld ν) : Prop :=
  Prog.wpAll R I p (fun _ _ => True) w

/-- The program ends with `Q`, whatever comes of its calls. -/
def Ending (R : Prog.Outcomes Op Op.Resp (LinkedWorld ν)) (p : Cmd α)
    (Q : α → LinkedWorld ν → Prop) (w : LinkedWorld ν) : Prop :=
  Prog.wpAll R (fun _ => True) p Q w

theorem Ending.bind {β : Type} {p : Cmd α} {f : α → Cmd β} {Q : β → LinkedWorld ν → Prop}
    (h : Ending R p (fun a w' => Ending R (f a) Q w') w) : Ending R (p >>= f) Q w :=
  Prog.wpAll_bind.2 h

theorem Ending.mono {p : Cmd α} {Q Q' : α → LinkedWorld ν → Prop} (h : Ending R p Q w)
    (hQ : ∀ a w', Q a w' → Q' a w') : Ending R p Q' w :=
  Prog.wpAll_mono h (fun _ _ => trivial) hQ

include hR

theorem ending_change {c : Change} {k : Except Errno Unit → Cmd α} {Q : α → LinkedWorld ν → Prop}
    (h : Keeping R I (Sys.change c >>= k) w)
    (hok : ∀ fs', applyLinked w.fs w.umask c = .ok fs' → I { w with fs := fs' } →
      Keeping R I (k (.ok ())) { w with fs := fs' } → Ending R (k (.ok ())) Q { w with fs := fs' })
    (herr : ∀ e fs', LinkedTorn w.umask c w.fs fs' →
      Ending R (k (.error e)) Q { w with fs := fs' }) :
    Ending R (Sys.change c >>= k) Q w := by
  intro r w' hcall
  obtain ⟨hI, hrest⟩ := h r w' hcall
  obtain ⟨fs', rfl, ⟨rfl, happ⟩ | ⟨⟨e, rfl⟩, htorn⟩⟩ := hR _ _ _ _ hcall
  · exact ⟨trivial, hok fs' happ hI hrest⟩
  · exact ⟨trivial, herr e fs' htorn⟩

theorem ending_get {store : BlobStore} (hs : isAbs store.baseDir) {hash : Bytes}
    {k : Except Err Chunk → Cmd α} {Q : α → LinkedWorld ν → Prop}
    (h : Keeping R I (store.get hash >>= k) w)
    (hok : ∀ data, linkedBlob store w.fs hash = some data →
      Keeping R I (k (.ok ⟨hash, UInt32.ofNat data.length, data⟩)) w →
      Ending R (k (.ok ⟨hash, UInt32.ofNat data.length, data⟩)) Q w)
    (herr : ∀ e, Ending R (k (.error e)) Q w) : Ending R (store.get hash >>= k) Q w := by
  rw [BlobStore.get, Prog.bind_assoc] at h ⊢
  intro r w₁ hopen
  obtain ⟨-, hrest⟩ := h r w₁ hopen
  obtain ⟨-, rfl⟩ := hR _ _ _ _ hopen
  refine ⟨trivial, ?_⟩
  cases r with
  | error e => cases e <;> exact herr _
  | ok _ =>
    intro r w₂ hread
    obtain ⟨-, hrest⟩ := hrest r w₂ hread
    obtain ⟨hanswer, rfl⟩ := hR _ _ _ _ hread
    refine ⟨trivial, ?_⟩
    cases r with
    | error e => exact herr _
    | ok data =>
      refine hok data ?_ hrest
      rcases hanswer with htrue | ⟨e, he⟩
      · rw [BlobStore.resolve_chunkPath hs] at htrue
        exact Fs.content_eq_some.2 htrue.symm
      · cases he

end Rules

/-! ### What a visit writes -/

/-- One file gets a content, and nothing else changes. -/
structure Rewritten (ino : ℕ) (content : Bytes) (fs fs' : Fs) : Prop where
  root : fs'.root = fs.root
  next : fs'.next = fs.next
  there : (fs'.inodes ino).content = content
  others : ∀ j ≠ ino, (fs'.inodes j).content = (fs.inodes j).content

theorem Rewritten.refl (ino : ℕ) (fs : Fs) : Rewritten ino (fs.inodes ino).content fs fs :=
  ⟨rfl, rfl, rfl, fun _ _ => rfl⟩

theorem Rewritten.trans {ino : ℕ} {c c' : Bytes} {fs fs' fs'' : Fs} (h : Rewritten ino c fs fs')
    (h' : Rewritten ino c' fs' fs'') : Rewritten ino c' fs fs'' :=
  ⟨h'.root.trans h.root, h'.next.trans h.next, h'.there,
    fun j hj => (h'.others j hj).trans (h.others j hj)⟩

theorem Rewritten.builds {ino : ℕ} {c : Bytes} {fs fs' : Fs} (h : Rewritten ino c fs fs') :
    Builds fs fs' := .of_root h.root h.next

theorem Rewritten.at_iff {ino : ℕ} {c : Bytes} {fs fs' : Fs} (h : Rewritten ino c fs fs')
    {p : List Bytes} {k : Os.Linked.Kind} : fs'.At p k ↔ fs.At p k := by
  rw [Fs.At, Fs.At, h.root]

theorem rewritten_withInode (fs : Fs) (ino : ℕ) (f : Os.Linked.Inode) :
    Rewritten ino f.content fs (fs.withInode ino f) where
  root := rfl
  next := rfl
  there := by simp [Fs.withInode]
  others j hj := by simp [Fs.withInode, hj]

/-- What a `write` that returned or failed has appended. -/
theorem rewritten_write {fs fs' : Fs} {umask : UInt32} {path data : Bytes} {ino : ℕ}
    (hat : fs.At (resolve path) (.file ino))
    (h : applyLinked fs umask (.write path data) = .ok fs') :
    Rewritten ino ((fs.inodes ino).content ++ data) fs fs' := by
  obtain ⟨i, hi, rfl⟩ := Fs.append_ok h
  cases hat.unique hi
  exact rewritten_withInode fs ino
    { fs.inodes ino with content := (fs.inodes ino).content ++ data }

theorem torn_write {fs fs' : Fs} {umask : UInt32} {path data : Bytes} {ino : ℕ}
    (hat : fs.At (resolve path) (.file ino))
    (h : LinkedTorn umask (.write path data) fs fs') :
    ∃ part, part <+: data ∧ Rewritten ino ((fs.inodes ino).content ++ part) fs fs' := by
  rcases h with rfl | ⟨c', hpart, happ⟩
  · refine ⟨[], List.nil_prefix, ?_⟩
    rw [List.append_nil]
    exact .refl ino fs'
  · cases hpart with
    | all => exact ⟨data, List.prefix_rfl, rewritten_write hat happ⟩
    | @bytes _ _ part hpre => exact ⟨part, hpre, rewritten_write hat happ⟩

/-- What a visit that returned `r` has made of the file system: directories, or a file whose content
is the content of the node or a part of it.  `fs₁` is the state in which the file was created or
emptied. -/
inductive Visited (umask : UInt32) (baseDir : Bytes) (blob : Bytes → Option Bytes) (v : Visit)
    (r : Option Fault) (fs fs' : Fs) : Prop
  | made (hbuilds : Builds fs fs') (hsame : fs'.inodes = fs.inodes)
      (hr : r = none → ¬ v.Writes ∧
        (v.node.isDir = true → ∃ m, fs'.At (v.target baseDir) (.dir m)))
  | wrote {fs₁ : Fs} {ino : ℕ} {part : Bytes} (hv : v.Writes)
      (hdirs : applyLinked fs umask (.mkdirAll (dir (v.path baseDir)) 0o755) = .ok fs₁)
      (hino : fs₁.At (v.target baseDir) (.file ino) ∨ ino = fs₁.next) (hbuilds : Builds fs₁ fs')
      (hat : fs'.At (v.target baseDir) (.file ino))
      (hpart : part <+: (assembled blob v.node.chunks).1)
      (hr : r = none → assembled blob v.node.chunks = (part, true))
      (hthere : (fs'.inodes ino).content = part)
      (hothers : ∀ j ≠ ino, (fs'.inodes j).content = (fs₁.inodes j).content)

theorem made_mkdirAll {fs fs' : Fs} {umask mode : UInt32} {path : Bytes}
    (h : applyLinked fs umask (.mkdirAll path mode) = .ok fs') :
    Builds fs fs' ∧ fs'.inodes = fs.inodes ∧ ∃ m, fs'.At (resolve path) (.dir m) :=
  Fs.mkdirAll_ok (fun _ => plain_of_mem_resolve) h

theorem torn_mkdirAll {fs fs' : Fs} {umask mode : UInt32} {path : Bytes}
    (h : LinkedTorn umask (.mkdirAll path mode) fs fs') :
    Builds fs fs' ∧ fs'.inodes = fs.inodes := by
  rcases h with rfl | ⟨c', hpart, happ⟩
  · exact ⟨.refl fs', rfl⟩
  · cases hpart with
    | all | dirs =>
      obtain ⟨hbuilds, hsame, -⟩ := made_mkdirAll happ
      exact ⟨hbuilds, hsame⟩

theorem torn_openTrunc {fs fs' : Fs} {umask mode : UInt32} {path : Bytes}
    (h : LinkedTorn umask (.openTrunc path mode) fs fs') :
    fs' = fs ∨ applyLinked fs umask (.openTrunc path mode) = .ok fs' := by
  rcases h with rfl | ⟨c', hpart, happ⟩
  · exact .inl rfl
  · cases hpart with
    | all => exact .inr happ

/-- Whatever comes of a `chmod`, the contents stay. -/
theorem rewritten_chmod {fs fs' : Fs} {umask mode : UInt32} {path : Bytes} {ino : ℕ}
    (hat : fs.At (resolve path) (.file ino))
    (h : applyLinked fs umask (.chmod path mode) = .ok fs') :
    Rewritten ino (fs.inodes ino).content fs fs' := by
  rw [applyLinked, Fs.chmod_of_lookup (Fs.lookup_eq_file.2 hat)] at h
  cases h
  exact rewritten_withInode fs ino
    ⟨mode &&& Os.modeBits, (fs.inodes ino).content, Os.Linked.regular_and mode⟩

theorem torn_chmod {fs fs' : Fs} {umask mode : UInt32} {path : Bytes} {ino : ℕ}
    (hat : fs.At (resolve path) (.file ino))
    (h : LinkedTorn umask (.chmod path mode) fs fs') :
    Rewritten ino (fs.inodes ino).content fs fs' := by
  rcases h with rfl | ⟨c', hpart, happ⟩
  · exact .refl ino fs'
  · cases hpart with
    | all => exact rewritten_chmod hat happ

section Visits

variable {R : Prog.Outcomes Op Op.Resp (LinkedWorld ν)}
  (hR : ∀ o w r w', R o w r w' → Unsteady o w r w') {w : LinkedWorld ν} {baseDir : Bytes}
  {store : BlobStore} {blob : Bytes → Option Bytes}

/-- The chunks that the visits need are in the store as `blob` says. -/
def HasBlobs (store : BlobStore) (blob : Bytes → Option Bytes) (vs : List Visit)
    (w : LinkedWorld ν) : Prop :=
  ∀ v ∈ vs, ∀ hash ∈ v.node.chunks, linkedBlob store w.fs hash = blob hash

include hR

/-- The loop over the chunks appends what the store has of them, or a part of it. -/
theorem ending_writeChunks (hs : isAbs store.baseDir) {I : LinkedWorld ν → Prop}
    {path : Bytes} {ino : ℕ} {hashes : List Bytes}
    (hI : ∀ w', I w' → ∀ hash ∈ hashes, linkedBlob store w'.fs hash = blob hash)
    (hat : w.fs.At (resolve path) (.file ino)) (hw : I w)
    (h : Keeping R I (writeChunks store path hashes) w) :
    Ending R (writeChunks store path hashes) (fun r w' => ∃ part,
      part <+: (assembled blob hashes).1 ∧ (r = none → assembled blob hashes = (part, true)) ∧
      Rewritten ino ((w.fs.inodes ino).content ++ part) w.fs w'.fs) w := by
  induction hashes generalizing w with
  | nil =>
    refine ⟨[], List.nil_prefix, fun _ => rfl, ?_⟩
    rw [List.append_nil]
    exact .refl ino w.fs
  | cons hash hashes ih =>
    have hnone {w' : LinkedWorld ν} {r : Option Fault} (hr : r ≠ none)
        {part : Bytes} (hpart : part <+: (assembled blob (hash :: hashes)).1)
        (hw' : Rewritten ino ((w.fs.inodes ino).content ++ part) w.fs w'.fs) :
        ∃ part, part <+: (assembled blob (hash :: hashes)).1 ∧
          (r = none → assembled blob (hash :: hashes) = (part, true)) ∧
          Rewritten ino ((w.fs.inodes ino).content ++ part) w.fs w'.fs :=
      ⟨part, hpart, fun h => (hr h).elim, hw'⟩
    rw [writeChunks] at h ⊢
    refine ending_get hR hs h (fun data hdata hrest => ?_) fun e => ?_
    · have hblob : blob hash = some data := by
        rw [← hI w hw hash List.mem_cons_self, hdata]
      have hassembled : assembled blob (hash :: hashes) =
          (data ++ (assembled blob hashes).1, (assembled blob hashes).2) := by
        rw [assembled, hblob]
      refine ending_change hR hrest (fun fs₁ h₁ hI₁ hrest₁ => ?_) fun e fs₁ htorn => ?_
      · have hwrite := rewritten_write hat h₁
        refine (ih (fun w' hw' x hx => hI w' hw' x (List.mem_cons_of_mem hash hx))
          (hwrite.at_iff.2 hat) hI₁ hrest₁).mono ?_
        rintro r w' ⟨part, hpart, hdone, hw'⟩
        refine ⟨data ++ part, ?_, fun hr => ?_, ?_⟩
        · rw [hassembled]
          exact (List.prefix_append_right_inj data).2 hpart
        · rw [hassembled, hdone hr]
        · rw [hwrite.there, List.append_assoc] at hw'
          exact hwrite.trans hw'
      · obtain ⟨part, hpart, hfs₁⟩ := torn_write hat htorn
        refine hnone (by simp) ?_ hfs₁
        rw [hassembled]
        exact hpart.trans (List.prefix_append _ _)
    · refine hnone (by simp) List.nil_prefix ?_
      rw [List.append_nil]
      exact .refl ino w.fs

/-- **What a visit of a file does.** -/
theorem ending_reconstructFile (hs : isAbs store.baseDir) {vs : List Visit}
    {v : Visit} (hmem : v ∈ vs) (hv : v.Writes) {m : UInt32} (hroot : w.fs.At [] (.dir m))
    (h : Keeping R (HasBlobs store blob vs) (reconstructFile store (v.path baseDir) v.node) w) :
    Ending R (reconstructFile store (v.path baseDir) v.node)
      (fun r w' => Visited w.umask baseDir blob v r.2 w.fs w'.fs) w := by
  unfold reconstructFile at h ⊢
  rw [if_neg hv.2] at h ⊢
  refine ending_change hR h (fun fs₁ h₁ _ hrest => ?_) fun e fs₁ htorn => ?_
  swap
  · obtain ⟨hbuilds, hsame⟩ := torn_mkdirAll htorn
    exact .made hbuilds hsame (by simp)
  obtain ⟨hbuilds₁, hsame₁, -⟩ := made_mkdirAll h₁
  have hopened {fs₂ : Fs}
      (h₂ : applyLinked fs₁ w.umask (.openTrunc (v.path baseDir) 0o666) = .ok fs₂) :
      ∃ ino, fs₂.At (v.target baseDir) (.file ino) ∧
        (fs₁.At (v.target baseDir) (.file ino) ∨ ino = fs₁.next) ∧ Builds fs₁ fs₂ ∧
        (fs₂.inodes ino).content = [] ∧ ∀ j ≠ ino, fs₂.inodes j = fs₁.inodes j := by
    have h₂' : fs₁.createTrunc (v.target baseDir) (perm w.umask 0o666) = .ok fs₂ := h₂
    have hne : v.target baseDir ≠ [] := fun hnil =>
      Fs.createTrunc_root (hroot.grows hbuilds₁.grows (by simp)) (hnil ▸ h₂')
    obtain ⟨hbuilds₂, ino, hat, hino, hempty, hothers⟩ := Fs.createTrunc_ok hne h₂
    exact ⟨ino, hat, hino, hbuilds₂, hempty, hothers⟩
  refine ending_change hR hrest (fun fs₂ h₂ hI₂ hrest₂ => ?_) fun e fs₂ htorn => ?_
  swap
  · rcases torn_openTrunc htorn with rfl | h₂
    · exact .made hbuilds₁ hsame₁ (by simp)
    · obtain ⟨ino, hat, hino, hbuilds₂, hempty, hothers⟩ := hopened h₂
      exact .wrote hv h₁ hino hbuilds₂ hat List.nil_prefix (by simp) hempty
        fun j hj => by rw [hothers j hj]
  obtain ⟨ino, hat, hino, hbuilds₂, hempty, hothers⟩ := hopened h₂
  -- The file is open and empty; from here on only its content changes.
  have hwrote {fs' : Fs} {part : Bytes} {r : Option Fault} (h' : Rewritten ino part fs₂ fs')
      (hpart : part <+: (assembled blob v.node.chunks).1)
      (hr : r = none → assembled blob v.node.chunks = (part, true)) :
      Visited w.umask baseDir blob v r w.fs fs' :=
    .wrote hv h₁ hino (hbuilds₂.trans h'.builds) (h'.at_iff.2 hat) hpart hr h'.there
      fun j hj => by rw [h'.others j hj, hothers j hj]
  have hloop := Prog.wpAll_bind.1 hrest₂
  have hkeep := Prog.wpAll_mono hloop (fun _ h => h) fun _ _ _ => trivial
  have hwritten : Ending R (writeChunks store (v.path baseDir) v.node.chunks) _
      { w with fs := fs₂ } :=
    ending_writeChunks hR hs (fun w' hw' hash hhash => hw' v hmem hash hhash) hat hI₂ hkeep
  refine Ending.bind (Prog.wpAll_mono (Prog.wpAll_and hloop hwritten) (fun _ _ => trivial) ?_)
  rintro r w₃ ⟨hrest₃, part, hpart, hdone, hfs₃⟩
  rw [hempty, List.nil_append] at hfs₃
  cases r with
  | some fault => exact hwrote hfs₃ hpart (by simp)
  | none =>
    have hat₃ : w₃.fs.At (resolve (v.path baseDir)) (.file ino) := hfs₃.at_iff.2 hat
    have hend {fs' : Fs} (h' : Rewritten ino (w₃.fs.inodes ino).content w₃.fs fs') :
        Visited w.umask baseDir blob v none w.fs fs' := by
      rw [hfs₃.there] at h'
      exact hwrote (hfs₃.trans h') hpart fun _ => hdone rfl
    dsimp only at hrest₃ ⊢
    split
    · next hmode =>
        rw [if_pos hmode] at hrest₃
        exact ending_change hR hrest₃ (fun fs₄ h₄ _ _ => hend (rewritten_chmod hat₃ h₄))
          fun e fs₄ htorn => hend (torn_chmod hat₃ htorn)
    · exact hend (.refl ino w₃.fs)

/-- **What a visit does.** -/
theorem ending_visit (hs : isAbs store.baseDir) {vs : List Visit} {v : Visit} (hmem : v ∈ vs)
    {m : UInt32} (hroot : w.fs.At [] (.dir m))
    (h : Keeping R (HasBlobs store blob vs) (visit baseDir store v) w) :
    Ending R (visit baseDir store v)
      (fun r w' => Visited w.umask baseDir blob v r w.fs w'.fs) w := by
  unfold visit at h ⊢
  split
  · next hdir =>
      rw [if_pos hdir] at h
      have hnot : ¬ v.Writes := fun hv => by simp [hv.1] at hdir
      refine ending_change hR h (fun fs₁ h₁ _ _ => ?_) fun e fs₁ htorn => ?_
      · obtain ⟨hbuilds, hsame, hat⟩ := made_mkdirAll h₁
        exact .made hbuilds hsame fun _ => ⟨hnot, fun _ => hat⟩
      · obtain ⟨hbuilds, hsame⟩ := torn_mkdirAll htorn
        exact .made hbuilds hsame (by simp)
  · next hdir =>
      rw [if_neg hdir] at h
      by_cases hne : v.node.chunks = []
      · rw [reconstructFile, if_pos hne]
        exact .made (.refl w.fs) rfl fun _ => ⟨fun hv => hv.2 hne, fun hd => (hdir hd).elim⟩
      · have hloop := Prog.wpAll_bind.1 h
        refine Ending.bind ((ending_reconstructFile hR hs hmem ⟨by simpa using hdir, hne⟩ hroot
          (Prog.wpAll_mono hloop (fun _ h => h) fun _ _ _ => trivial)).mono ?_)
        exact fun _ _ heff => heff

end Visits

/-! ### Visits in turn -/

section Turns

variable {R : Prog.Outcomes Op Op.Resp (LinkedWorld ν)} {w w' : LinkedWorld ν} {baseDir : Bytes}
  {store : BlobStore} {vs : List Visit}

theorem ends_visitAll_cons {v : Visit} {r : Option Fault} :
    Prog.Ends R (visitAll baseDir store (v :: vs)) w r w' ↔
      (r ≠ none ∧ Prog.Ends R (visit baseDir store v) w r w') ∨
        ∃ w₁, Prog.Ends R (visit baseDir store v) w none w₁ ∧
          Prog.Ends R (visitAll baseDir store vs) w₁ r w' := by
  rw [visitAll, Prog.ends_bind]
  constructor
  · rintro ⟨_ | fault, w₁, hv, hrest⟩
    · exact .inr ⟨w₁, hv, hrest⟩
    · obtain ⟨rfl, rfl⟩ := Prog.ends_ret.1 hrest
      exact .inl ⟨by simp, hv⟩
  · rintro (⟨hr, hv⟩ | ⟨w₁, hv, hrest⟩)
    · cases r with
      | none => exact (hr rfl).elim
      | some fault => exact ⟨some fault, w', hv, .ret⟩
    · exact ⟨none, w₁, hv, hrest⟩

theorem ends_visitAll_append {before : List Visit} {w₁ : LinkedWorld ν} {r : Option Fault}
    (h : Prog.Ends R (visitAll baseDir store before) w none w₁)
    (h' : Prog.Ends R (visitAll baseDir store vs) w₁ r w') :
    Prog.Ends R (visitAll baseDir store (before ++ vs)) w r w' := by
  rw [visitAll_append, Prog.ends_bind]
  exact ⟨none, w₁, h, h'⟩

/-- A run of visits that failed: at one of them, behind others that did not. -/
theorem exists_failing_visit {fault : Fault}
    (h : Prog.Ends R (visitAll baseDir store vs) w (some fault) w') :
    ∃ before v after w₁, vs = before ++ v :: after ∧
      Prog.Ends R (visitAll baseDir store before) w none w₁ ∧
      Prog.Ends R (visit baseDir store v) w₁ (some fault) w' := by
  induction vs generalizing w with
  | nil => cases (Prog.ends_ret.1 h).1
  | cons v vs ih =>
    rcases ends_visitAll_cons.1 h with ⟨-, hv⟩ | ⟨w₁, hv, hrest⟩
    · exact ⟨[], v, vs, w, rfl, .ret, hv⟩
    · obtain ⟨before, u, after, w₂, rfl, hbefore, hu⟩ := ih hrest
      exact ⟨v :: before, u, after, w₂, rfl, ends_visitAll_cons.2 (.inr ⟨w₁, hv, hbefore⟩), hu⟩

/-- What is known of all visits is known of those that are left. -/
theorem Keeping.rest {I : LinkedWorld ν → Prop} {before : List Visit} {w₁ : LinkedWorld ν}
    (h : Keeping R I (visitAll baseDir store (before ++ vs)) w)
    (hbefore : Prog.Ends R (visitAll baseDir store before) w none w₁) :
    Keeping R I (visitAll baseDir store vs) w₁ := by
  rw [Keeping, visitAll_append, Prog.wpAll_bind] at h
  exact Prog.wpAll_ends h hbefore

theorem Keeping.first {I : LinkedWorld ν → Prop} {v : Visit}
    (h : Keeping R I (visitAll baseDir store (v :: vs)) w) :
    Keeping R I (visit baseDir store v) w := by
  rw [Keeping, visitAll, Prog.wpAll_bind] at h
  exact Prog.wpAll_mono h (fun _ h => h) fun _ _ _ => trivial

/-- What visits that did not fail have made of the file system: the directories and the files of
their nodes are there.  A file to which the paths of nodes with chunks lead has the content of one
of them, and any other the one that it had. -/
structure Done (baseDir : Bytes) (blob : Bytes → Option Bytes) (vs : List Visit) (fs fs' : Fs) :
    Prop where
  builds : Builds fs fs'
  dirs : ∀ v ∈ vs, v.node.isDir = true → ∃ m, fs'.At (v.target baseDir) (.dir m)
  files : ∀ v ∈ vs, v.Writes → (assembled blob v.node.chunks).2 = true ∧
    ∃ ino, fs'.At (v.target baseDir) (.file ino)
  written : ∀ ino, (∃ v ∈ vs, v.Writes ∧ fs'.At (v.target baseDir) (.file ino)) →
    ∃ v ∈ vs, v.Writes ∧ fs'.At (v.target baseDir) (.file ino) ∧
      (fs'.inodes ino).content = (assembled blob v.node.chunks).1
  others : ∀ ino, (∀ v ∈ vs, v.Writes → ¬ fs'.At (v.target baseDir) (.file ino)) →
    (fs'.inodes ino).content = (fs.inodes ino).content

variable {blob : Bytes → Option Bytes}

theorem done_nil (fs : Fs) : Done baseDir blob [] fs fs :=
  ⟨.refl fs, by simp, by simp, by simp, fun _ _ => rfl⟩

theorem Visited.builds {umask : UInt32} {v : Visit} {r : Option Fault} {fs fs' : Fs}
    (h : Visited umask baseDir blob v r fs fs') : Builds fs fs' := by
  cases h with
  | made hbuilds => exact hbuilds
  | wrote _ hdirs _ hbuilds => exact (made_mkdirAll hdirs).1.trans hbuilds

/-- The file that a visited path led to is where it leads. -/
theorem Done.at_iff {fs fs₁ fs₂ : Fs} (h : Done baseDir blob vs fs fs₁) (hbuilds : Builds fs₁ fs₂)
    {v : Visit} (hv : v ∈ vs) (hw : v.Writes) {ino : ℕ} :
    fs₂.At (v.target baseDir) (.file ino) ↔ fs₁.At (v.target baseDir) (.file ino) := by
  obtain ⟨-, i, hi⟩ := h.files v hv hw
  refine ⟨fun h₂ => ?_, fun h₁ => h₁.grows hbuilds.grows (by simp)⟩
  cases (hi.grows hbuilds.grows (by simp)).unique h₂
  exact hi

/-- One more visit. -/
theorem Done.visit {umask : UInt32} {v : Visit} {fs fs₁ fs₂ : Fs}
    (h : Done baseDir blob vs fs fs₁) (hv : Visited umask baseDir blob v none fs₁ fs₂) :
    Done baseDir blob (vs ++ [v]) fs fs₂ := by
  have hbuilds := hv.builds
  have hdirs : ∀ u ∈ vs, u.node.isDir = true → ∃ m, fs₂.At (u.target baseDir) (.dir m) := by
    intro u hu hdir
    obtain ⟨m, hm⟩ := h.dirs u hu hdir
    exact ⟨m, hm.grows hbuilds.grows (by simp)⟩
  have hfiles : ∀ u ∈ vs, u.Writes → (assembled blob u.node.chunks).2 = true ∧
      ∃ ino, fs₂.At (u.target baseDir) (.file ino) := by
    intro u hu huw
    obtain ⟨hall, ino, hino⟩ := h.files u hu huw
    exact ⟨hall, ino, hino.grows hbuilds.grows (by simp)⟩
  -- A file that this visit leaves is as the visits before left it.
  have hwritten {ino : ℕ} (hsame : (fs₂.inodes ino).content = (fs₁.inodes ino).content) {u : Visit}
      (hu : u ∈ vs) (huw : u.Writes) (hat : fs₂.At (u.target baseDir) (.file ino)) :
      ∃ u ∈ vs ++ [v], u.Writes ∧ fs₂.At (u.target baseDir) (.file ino) ∧
        (fs₂.inodes ino).content = (assembled blob u.node.chunks).1 := by
    obtain ⟨x, hx, hxw, hxat, hcontent⟩ :=
      h.written ino ⟨u, hu, huw, (h.at_iff hbuilds hu huw).1 hat⟩
    exact ⟨x, List.mem_append_left _ hx, hxw, (h.at_iff hbuilds hx hxw).2 hxat,
      hsame.trans hcontent⟩
  have hothers {ino : ℕ} (hsame : (fs₂.inodes ino).content = (fs₁.inodes ino).content)
      (hnone : ∀ u ∈ vs ++ [v], u.Writes → ¬ fs₂.At (u.target baseDir) (.file ino)) :
      (fs₂.inodes ino).content = (fs.inodes ino).content :=
    hsame.trans (h.others ino fun u hu huw hat =>
      hnone u (List.mem_append_left _ hu) huw ((h.at_iff hbuilds hu huw).2 hat))
  cases hv with
  | made _ hsame hr =>
    obtain ⟨hnot, hdir⟩ := hr rfl
    have hcontent (ino : ℕ) : (fs₂.inodes ino).content = (fs₁.inodes ino).content := by
      rw [hsame]
    refine ⟨h.builds.trans hbuilds, List.forall_mem_append.2 ⟨hdirs, ?_⟩,
      List.forall_mem_append.2 ⟨hfiles, ?_⟩, ?_, fun ino => hothers (hcontent ino)⟩
    · exact List.forall_mem_singleton.2 hdir
    · exact List.forall_mem_singleton.2 fun hw => (hnot hw).elim
    · rintro ino ⟨u, hu, huw, hat⟩
      rcases List.mem_append.1 hu with hu | hu
      · exact hwritten (hcontent ino) hu huw hat
      · rw [List.mem_singleton.1 hu] at huw
        exact (hnot huw).elim
  | @wrote fs₃ i part hw hmade _ _ hati _ hr hthere helse =>
    have hcontent {ino : ℕ} (hne : ino ≠ i) :
        (fs₂.inodes ino).content = (fs₁.inodes ino).content := by
      rw [helse ino hne, (made_mkdirAll hmade).2.1]
    have hassembled := hr rfl
    refine ⟨h.builds.trans hbuilds, List.forall_mem_append.2 ⟨hdirs, ?_⟩,
      List.forall_mem_append.2 ⟨hfiles, ?_⟩, ?_, fun ino hnone => ?_⟩
    · exact List.forall_mem_singleton.2 fun hdir => by simp [hw.1] at hdir
    · exact List.forall_mem_singleton.2 fun _ => ⟨by rw [hassembled], i, hati⟩
    · rintro ino ⟨u, hu, huw, hat⟩
      by_cases hino : ino = i
      · subst hino
        exact ⟨v, by simp, hw, hati, by rw [hthere, hassembled]⟩
      · rcases List.mem_append.1 hu with hu | hu
        · exact hwritten (hcontent hino) hu huw hat
        · rw [List.mem_singleton.1 hu] at hat
          cases hati.unique hat
          exact (hino rfl).elim
    · refine hothers (hcontent fun hino => ?_) hnone
      subst hino
      exact hnone v (by simp) hw hati

/-- **What visits do in turn**, those before the others of a list. -/
theorem done_visitAll (hR : ∀ o w r w', R o w r w' → Unsteady o w r w')
    (hs : isAbs store.baseDir) {m : UInt32} (hroot : w.fs.At [] (.dir m))
    (h : Keeping R (HasBlobs store blob vs) (visitAll baseDir store vs) w)
    {before rest : List Visit} (hvs : vs = before ++ rest) {w₁ : LinkedWorld ν}
    (hends : Prog.Ends R (visitAll baseDir store before) w none w₁) :
    Done baseDir blob before w.fs w₁.fs := by
  induction before using List.reverseRecOn generalizing rest w₁ with
  | nil =>
    obtain ⟨-, rfl⟩ := Prog.ends_ret.1 hends
    exact done_nil w₁.fs
  | append_singleton before v ih =>
    rw [visitAll_append, Prog.ends_bind] at hends
    obtain ⟨_ | fault, w₂, hbefore, hlast⟩ := hends
    swap
    · cases (Prog.ends_ret.1 hlast).1
    have hsplit : vs = before ++ v :: rest := by rw [hvs, List.append_assoc]; rfl
    have hdone := ih hsplit hbefore
    have hkeep : Keeping R (HasBlobs store blob vs) (visitAll baseDir store (v :: rest)) w₂ := by
      rw [hsplit] at h ⊢
      exact h.rest hbefore
    have hvisit : Prog.Ends R (visit baseDir store v) w₂ none w₁ := by
      rcases ends_visitAll_cons.1 hlast with ⟨hr, -⟩ | ⟨w₃, hv, hnil⟩
      · exact (hr rfl).elim
      · obtain ⟨-, rfl⟩ := Prog.ends_ret.1 hnil
        exact hv
    have hroot₂ : w₂.fs.At [] (.dir m) := hroot.grows hdone.builds.grows (by simp)
    exact hdone.visit (Prog.wpAll_ends (ending_visit hR hs (hsplit ▸ by simp) hroot₂ hkeep.first)
      hvisit)

end Turns

end FileSync.Cli
