import FileSync.Cas.Store

/-!
# Cli — reconstruction

`reconstructFiles` writes the files of a manifest below a directory, from the chunks of the store
(`cmd/p2p-file-sync/main.go`).  A directory node is created and its children are visited; a file
node with chunks is created, truncated and written chunk by chunk; the first error ends it all.

`visits` are the nodes that are visited, in order, each with the path of its parent relative to the
directory, and `visitAll` does for each of them what is done for the node itself.

* `reconstructFiles_eq`: but for the count of files, `reconstructFiles` is `visitAll` of the visits.
  So what is said of a list of visits is said of every manifest.
* `assembled` is what a store has of a list of chunks: the data up to the first that is missing, and
  whether none is; `visit_spec` says what a visit does to the contents of the files.
-/

open Filepath

namespace FileSync.Cli

open Proto (ManifestNode Request Exchange)
open Cas (BlobStore)

/-! ### The program -/

section Program

variable [Allocator]

/-- How a missing chunk is reported: with `hash[:8]`, which panics where there is no room. -/
def missingChunk (hash : Bytes) (e : Err) : Fault :=
  match front hash 8 with
  | none => .panic
  | some start => .err (.wrapOf "missing chunk" start e)

/-- The loop over the chunks of a file that was created. -/
def writeChunks (store : BlobStore) (path : Bytes) : List Bytes → Cmd (Option Fault)
  | [] => return none
  | hash :: hashes => do
      match ← store.get hash with
      | .error e => return some (missingChunk hash e)
      | .ok chunk =>
        match ← Sys.write path chunk.data with
        | .error e => return some (.err (.errno e))
        | .ok () => writeChunks store path hashes

/-- What is done for a file: the number of files written, and how it failed. -/
def reconstructFile (store : BlobStore) (currentPath : Bytes) (node : ManifestNode) :
    Cmd (ℕ × Option Fault) := do
  if node.chunks = [] then return (0, none)
  match ← Sys.mkdirAll (dir currentPath) 0o755 with
  | .error e => return (0, some (.err (.errno e)))
  | .ok () =>
  match ← Sys.openTrunc currentPath 0o666 with
  | .error e => return (0, some (.err (.errno e)))
  | .ok () =>
  match ← writeChunks store currentPath node.chunks with
  | some fault => return (0, some fault)
  | none =>
  if node.mode ≠ 0 then
    let _ ← Sys.chmod currentPath node.mode
    return (1, none)
  else return (1, none)

mutual

def reconstructFilesRecursive (baseDir : Bytes) (store : BlobStore) (relPath : Bytes) :
    ManifestNode → Cmd (ℕ × Option Fault)
  | n@{ children := cs, .. } =>
    let currentPath := join [baseDir, relPath, n.name]
    if n.isDir then do
      match ← Sys.mkdirAll currentPath (n.mode ||| 0o755) with
      | .error e => return (0, some (.err (.errno e)))
      | .ok () => reconstructChildren baseDir store (join [relPath, n.name]) cs 0
    else reconstructFile store currentPath n

/-- The loop over the children, with the number of files written so far. -/
def reconstructChildren (baseDir : Bytes) (store : BlobStore) (relPath : Bytes) :
    List ManifestNode → ℕ → Cmd (ℕ × Option Fault)
  | [], filesWritten => return (filesWritten, none)
  | c :: cs, filesWritten => do
      match ← reconstructFilesRecursive baseDir store relPath c with
      | (_, some fault) => return (filesWritten, some fault)
      | (n, none) => reconstructChildren baseDir store relPath cs (filesWritten + n)

end

/-- `reconstructFiles`: the name of the root is skipped. -/
def reconstructFiles (baseDir : Bytes) (node : Option ManifestNode) (store : BlobStore) :
    Cmd (ℕ × Option Fault) :=
  match node with
  | none => return (0, none)
  | some node => reconstructChildren baseDir store [] node.children 0

/-! ### The visits -/

/-- A node and the path of its parent, relative to the directory. -/
structure Visit where
  relPath : Bytes
  node : ManifestNode

/-- The path of the node. -/
def Visit.path (baseDir : Bytes) (v : Visit) : Bytes := join [baseDir, v.relPath, v.node.name]

mutual

/-- The node and, if it is a directory, what is visited below it. -/
def visitsFrom (relPath : Bytes) : ManifestNode → List Visit
  | n@{ children := cs, .. } =>
    ⟨relPath, n⟩ :: if n.isDir then visitsOf (join [relPath, n.name]) cs else []

def visitsOf (relPath : Bytes) : List ManifestNode → List Visit
  | [] => []
  | c :: cs => visitsFrom relPath c ++ visitsOf relPath cs

end

/-- The nodes visited for a manifest. -/
def visits (node : Option ManifestNode) : List Visit :=
  match node with
  | none => []
  | some node => visitsOf [] node.children

/-- What is done for the node itself. -/
def visit (baseDir : Bytes) (store : BlobStore) (v : Visit) : Cmd (Option Fault) :=
  if v.node.isDir then do
    match ← Sys.mkdirAll (v.path baseDir) (v.node.mode ||| 0o755) with
    | .error e => return some (.err (.errno e))
    | .ok () => return none
  else do
    let (_, fault) ← reconstructFile store (v.path baseDir) v.node
    return fault

/-- Visits in turn, up to the first that fails. -/
def visitAll (baseDir : Bytes) (store : BlobStore) : List Visit → Cmd (Option Fault)
  | [] => return none
  | v :: vs => do
      match ← visit baseDir store v with
      | some fault => return some fault
      | none => visitAll baseDir store vs

end Program

/-- A root with one file, of one chunk. -/
def oneFile (name : Bytes) : ManifestNode :=
  ⟨[114], true, [], 0o755, 1, [⟨name, false, [], 0o644, 1, [], [List.replicate 32 0]⟩], []⟩

section Equations

variable [Allocator] {baseDir : Bytes} {store : BlobStore}

theorem visitAll_append (vs ws : List Visit) :
    visitAll baseDir store (vs ++ ws) = (do
      match ← visitAll baseDir store vs with
      | some fault => return some fault
      | none => visitAll baseDir store ws) := by
  induction vs with
  | nil => rfl
  | cons v vs ih =>
    rw [List.cons_append, visitAll, visitAll, ih, Prog.bind_assoc]
    congr 1
    funext r
    cases r <;> rfl

mutual

theorem reconstructFilesRecursive_eq (relPath : Bytes) : ∀ n : ManifestNode,
    (reconstructFilesRecursive baseDir store relPath n >>= fun r => .ret r.2) =
      visitAll baseDir store (visitsFrom relPath n)
  | n@{ children := cs, .. } => by
    rw [reconstructFilesRecursive, visitsFrom, visitAll, visit]
    dsimp only
    split
    · rw [Prog.bind_assoc, Prog.bind_assoc]
      congr 1
      funext r
      rcases r with e | _
      · rfl
      · exact reconstructChildren_eq (join [relPath, _]) cs 0
    · rw [Prog.bind_assoc]
      congr 1
      funext r
      rcases r with ⟨m, _ | fault⟩ <;> rfl

theorem reconstructChildren_eq (relPath : Bytes) : ∀ (cs : List ManifestNode) (k : ℕ),
    (reconstructChildren baseDir store relPath cs k >>= fun r => .ret r.2) =
      visitAll baseDir store (visitsOf relPath cs)
  | [], k => rfl
  | c :: cs, k => by
    rw [reconstructChildren, visitsOf, visitAll_append, ← reconstructFilesRecursive_eq relPath c,
      Prog.bind_assoc, Prog.bind_assoc]
    congr 1
    funext r
    rcases r with ⟨m, _ | fault⟩
    · exact reconstructChildren_eq relPath cs (k + m)
    · rfl

end

/-- **A reconstruction is its visits.** -/
theorem reconstructFiles_eq (node : Option ManifestNode) :
    (reconstructFiles baseDir node store >>= fun r => .ret r.2) =
      visitAll baseDir store (visits node) := by
  cases node with
  | none => rfl
  | some node => exact reconstructChildren_eq [] node.children 0

end Equations

/-! ### Paths -/

namespace Visit

/-- Where the node is. -/
def target (baseDir : Bytes) (v : Visit) : List Bytes := resolve (v.path baseDir)

/-- The elements of the node's path relative to the directory, cleaned. -/
def rel (v : Visit) : List Bytes := (split v.relPath ++ split v.node.name).foldl climb []

variable {baseDir : Bytes}

theorem noSlash_elements (v : Visit) : ∀ c ∈ split v.relPath ++ split v.node.name, 47 ∉ c := by
  exact List.forall_mem_append.2 ⟨fun _ => no_slash_of_mem_split, fun _ => no_slash_of_mem_split⟩

theorem path_eq (hb : isAbs baseDir) (v : Visit) : v.path baseDir =
    ofNames ((resolve baseDir).rdrop (goesUp v.rel) ++ goesDown v.rel) := by
  rw [path, join_of_isAbs hb, rel, ← foldl_descend_relative v.noSlash_elements]
  simp

theorem target_eq (hb : isAbs baseDir) (v : Visit) :
    v.target baseDir = (resolve baseDir).rdrop (goesUp v.rel) ++ goesDown v.rel := by
  rw [target, path_eq hb, resolve_ofNames]
  rw [rel, ← foldl_descend_relative v.noSlash_elements]
  exact plain_of_mem_descend v.noSlash_elements fun c => plain_of_mem_resolve

theorem resolve_dir_path (hb : isAbs baseDir) (v : Visit) :
    resolve (dir (v.path baseDir)) = (v.target baseDir).dropLast := by
  have hpath : v.path baseDir = ofNames (v.target baseDir) := by
    rw [target_eq hb, path_eq hb]
  rw [hpath]
  exact resolve_dir_ofNames fun c => plain_of_mem_resolve

end Visit

/-! ### What a visit does -/

/-- What the store has of a file with these chunks: the data up to the first that is missing, and
whether none is. -/
def assembled (blob : Bytes → Option Bytes) : List Bytes → Bytes × Bool
  | [] => ([], true)
  | hash :: hashes =>
    match blob hash with
    | none => ([], false)
    | some data => (data ++ (assembled blob hashes).1, (assembled blob hashes).2)

theorem assembled_congr {blob blob' : Bytes → Option Bytes} (h : ∀ hash, blob' hash = blob hash)
    (hashes : List Bytes) : assembled blob' hashes = assembled blob hashes := by
  rw [funext h]

/-- The contents of chunks, one after the other, as a store has them. -/
def contents (blob : Bytes → Option Bytes) (hashes : List Bytes) : Bytes :=
  (hashes.map fun hash => (blob hash).getD []).flatten

/-- What a store has of chunks none of which is missing. -/
theorem assembled_complete {blob : Bytes → Option Bytes} {hashes : List Bytes}
    (h : (assembled blob hashes).2 = true) :
    (assembled blob hashes).1 = contents blob hashes ∧
      ∀ hash ∈ hashes, ∃ data, blob hash = some data := by
  induction hashes with
  | nil => exact ⟨rfl, List.forall_mem_nil _⟩
  | cons hash hashes ih =>
    rw [assembled] at h ⊢
    cases hb : blob hash with
    | none => simp [hb] at h
    | some data =>
      simp only [hb] at h ⊢
      obtain ⟨hcontents, hall⟩ := ih h
      refine ⟨?_, List.forall_mem_cons.2 ⟨⟨data, hb⟩, hall⟩⟩
      rw [hcontents, contents, contents, List.map_cons, List.flatten_cons, hb,
        Option.getD_some]

/-- The visit is of a file that is written. -/
def Visit.Writes (v : Visit) : Prop := v.node.isDir = false ∧ v.node.chunks ≠ []

section Spec

variable {ν : Type} {answer : Request → ν → Exchange × ν} {I : World ν → Prop} {w : World ν}
  {baseDir : Bytes} {store : BlobStore}

/-- The chunks that the store has are appended, up to the first that it does not have. -/
theorem writeChunks_spec (hs : isAbs store.baseDir) {path : Bytes} {c : Bytes}
    (hsep : ∀ hash, store.place hash ≠ resolve path)
    (hI : ∀ fs', (∀ q, q ≠ resolve path → Os.content fs' q = Os.content w.fs q) →
      I { w with fs := fs' })
    (hashes : List Bytes) (hc : Os.content w.fs (resolve path) = some c) :
    Prog.wp (handle answer) I (writeChunks store path hashes) (fun r w' =>
      ∃ fs', w' = { w with fs := fs' } ∧
        (∀ q, q ≠ resolve path → Os.content fs' q = Os.content w.fs q) ∧
        Os.content fs' (resolve path) = some (c ++ (assembled (store.blob w.fs) hashes).1) ∧
        (r = none ↔ (assembled (store.blob w.fs) hashes).2 = true)) w := by
  induction hashes generalizing w c with
  | nil => exact ⟨w.fs, rfl, fun _ _ => rfl, by simpa [assembled] using hc, by simp [assembled]⟩
  | cons hash hashes ih =>
    refine Prog.wp_bind.2 (BlobStore.wp_get hs (hI w.fs fun _ _ => rfl) (fun data hdata => ?_)
      fun hnone e => ?_)
    · refine wp_change (fun e he => ?_) (fun fs₁ h₁ => ?_)
      · obtain ⟨m, hm⟩ := Os.content_eq_some.1 hc
        obtain ⟨fs', hfs'⟩ := Os.append_succeeds hm data
        exact nomatch hfs'.symm.trans he
      · obtain ⟨c', hc', hc₁, helse⟩ := Os.content_append h₁
        obtain rfl := Option.some.inj (hc.symm.trans hc')
        have hblob : ∀ hash, store.blob fs₁ hash = store.blob w.fs hash :=
          fun hash => helse _ (hsep hash)
        refine ⟨hI fs₁ helse, Prog.wp_mono (ih (fun fs' hfs' => hI fs' fun q hq =>
          (hfs' q hq).trans (helse q hq)) hc₁) ?_⟩
        rintro r _ ⟨fs', rfl, helse', hcont, hr⟩
        rw [assembled_congr hblob] at hcont hr
        refine ⟨fs', rfl, fun q hq => (helse' q hq).trans (helse q hq), ?_, ?_⟩
        · rw [assembled, hdata, hcont, List.append_assoc]
        · rw [assembled, hdata, hr]
    · refine ⟨w.fs, rfl, fun _ _ => rfl, ?_, ?_⟩
      · simpa [assembled, hnone] using hc
      · simp [assembled, hnone]

/-- What a visit that returned `r` has made of the contents of the files. -/
structure VisitEffect (baseDir : Bytes) (store : BlobStore) (v : Visit) (r : Option Fault)
    (fs fs' : Os.Fs) : Prop where
  elsewhere : ∀ q, (v.Writes → q ≠ v.target baseDir) → Os.content fs' q = Os.content fs q
  there : v.Writes →
    (Os.content fs' (v.target baseDir) = some (assembled (store.blob fs) v.node.chunks).1 ∧
        (r = none ↔ (assembled (store.blob fs) v.node.chunks).2 = true)) ∨
      (r ≠ none ∧ Os.content fs' (v.target baseDir) = Os.content fs (v.target baseDir) ∧
        (Os.content fs (v.target baseDir) = none ∨ v.target baseDir = []))

theorem reconstructFile_spec (hb : isAbs baseDir) (hs : isAbs store.baseDir) {v : Visit}
    (hv : v.Writes) (hsep : ∀ hash, store.place hash ≠ v.target baseDir)
    (hI : ∀ fs', (∀ q, q ≠ v.target baseDir → Os.content fs' q = Os.content w.fs q) →
      I { w with fs := fs' }) :
    Prog.wp (handle answer) I (reconstructFile store (v.path baseDir) v.node) (fun r w' =>
      ∃ fs', w' = { w with fs := fs' } ∧ VisitEffect baseDir store v r.2 w.fs fs') w := by
  have hclosed {fs' : Os.Fs} {r : Option Fault} (hr : r ≠ none)
      (hsame : ∀ q, Os.content fs' q = Os.content w.fs q)
      (hfree : Os.content w.fs (v.target baseDir) = none ∨ v.target baseDir = []) :
      VisitEffect baseDir store v r w.fs fs' :=
    ⟨fun q _ => hsame q, fun _ => Or.inr ⟨hr, hsame _, hfree⟩⟩
  -- What cannot be opened is no file.
  have hopen : (Os.content w.fs (v.target baseDir) = none ∨ v.target baseDir = []) ∨
      (Os.mkdirAll w.fs (resolve (dir (v.path baseDir))) (perm w.umask 0o755) = .ok w.fs ∧
        ∃ fs₂, Os.createTrunc w.fs (v.target baseDir) (perm w.umask 0o666) = .ok fs₂) := by
    rw [or_iff_not_imp_left, not_or, Visit.resolve_dir_path hb]
    exact fun h => Os.open_of_content h.1 h.2 _ _
  unfold reconstructFile
  rw [if_neg hv.2]
  refine wp_change (fun e he => ⟨hI w.fs fun _ _ => rfl, w.fs, rfl,
    hclosed (by simp) (fun _ => rfl) (hopen.resolve_right fun h => nomatch h.1.symm.trans he)⟩)
    (fun fs₁ h₁ => ?_)
  have hsame₁ := Os.content_mkdirAll h₁
  refine ⟨hI fs₁ fun q _ => hsame₁ q, wp_change (fun e he => ⟨hI fs₁ fun q _ => hsame₁ q, fs₁, rfl,
    hclosed (by simp) hsame₁ (hopen.resolve_right fun h => ?_)⟩) (fun fs₂ h₂ => ?_)⟩
  · obtain rfl := Except.ok.inj (h.1.symm.trans h₁)
    obtain ⟨fs₂, h₂⟩ := h.2
    exact nomatch h₂.symm.trans he
  obtain ⟨hempty, helse₂⟩ := Os.content_createTrunc h₂
  have hkeep₂ : ∀ q, q ≠ v.target baseDir → Os.content fs₂ q = Os.content w.fs q :=
    fun q hq => (helse₂ q hq).trans (hsame₁ q)
  have hblob₂ : ∀ hash, store.blob fs₂ hash = store.blob w.fs hash :=
    fun hash => hkeep₂ _ (hsep hash)
  refine ⟨hI fs₂ hkeep₂, Prog.wp_bind.2 (Prog.wp_mono (writeChunks_spec
    (w := { w with fs := fs₂ }) (c := []) hs hsep
    (fun fs' hfs' => hI fs' fun q hq => (hfs' q hq).trans (hkeep₂ q hq)) v.node.chunks hempty) ?_)⟩
  rintro r _ ⟨fs₃, rfl, helse₃, hcont₃, hr⟩
  rw [assembled_congr hblob₂, List.nil_append] at hcont₃
  rw [assembled_congr hblob₂] at hr
  have hkeep₃ : ∀ q, q ≠ v.target baseDir → Os.content fs₃ q = Os.content w.fs q :=
    fun q hq => (helse₃ q hq).trans (hkeep₂ q hq)
  have heff {fs' : Os.Fs} (hfs' : ∀ q, Os.content fs' q = Os.content fs₃ q) :
      VisitEffect baseDir store v r w.fs fs' :=
    ⟨fun q hq => (hfs' q).trans (hkeep₃ q (hq hv)),
      fun _ => Or.inl ⟨(hfs' _).trans hcont₃, hr⟩⟩
  cases r with
  | some fault => exact ⟨fs₃, rfl, heff fun _ => rfl⟩
  | none =>
    dsimp only
    split
    · refine wp_change (fun e he => ⟨hI fs₃ hkeep₃, fs₃, rfl, heff fun _ => rfl⟩)
        (fun fs₄ h₄ => ?_)
      have hmode := Os.content_chmod h₄
      exact ⟨hI fs₄ fun q hq => (hmode q).trans (hkeep₃ q hq), fs₄, rfl, heff hmode⟩
    · exact ⟨fs₃, rfl, heff fun _ => rfl⟩

/-- **What a visit does to the contents of the files.** -/
theorem visit_spec (hb : isAbs baseDir) (hs : isAbs store.baseDir) {v : Visit}
    (hsep : v.Writes → ∀ hash, store.place hash ≠ v.target baseDir)
    (hI : ∀ fs', (∀ q, (v.Writes → q ≠ v.target baseDir) → Os.content fs' q = Os.content w.fs q) →
      I { w with fs := fs' }) :
    Prog.wp (handle answer) I (visit baseDir store v) (fun r w' =>
      ∃ fs', w' = { w with fs := fs' } ∧ VisitEffect baseDir store v r w.fs fs') w := by
  unfold visit
  split
  · next hdir =>
      have hw : ¬ v.Writes := fun h => by simp [h.1] at hdir
      have heff {fs' : Os.Fs} (r : Option Fault) (h : ∀ q, Os.content fs' q = Os.content w.fs q) :
          VisitEffect baseDir store v r w.fs fs' := ⟨fun q _ => h q, fun h => (hw h).elim⟩
      refine wp_change (fun e he => ⟨hI w.fs fun _ _ => rfl, w.fs, rfl, heff _ fun _ => rfl⟩)
        (fun fs₁ h₁ => ?_)
      exact ⟨hI fs₁ fun q _ => Os.content_mkdirAll h₁ q, fs₁, rfl,
        heff _ (Os.content_mkdirAll h₁)⟩
  · next hdir =>
      by_cases hne : v.node.chunks = []
      · rw [reconstructFile, if_pos hne]
        exact ⟨w.fs, rfl, fun _ _ => rfl, fun h => (h.2 hne).elim⟩
      · have hv : v.Writes := ⟨by simpa using hdir, hne⟩
        exact Prog.wp_bind.2 (reconstructFile_spec hb hs hv (hsep hv)
          fun fs' h => hI fs' fun q hq => h q (hq hv))

/-- **What visits do in turn**, when none writes a blob of the store: the files elsewhere are left
alone, and if no visit failed each file that was written has what its last visit wrote. -/
theorem visitAll_spec (hb : isAbs baseDir) (hs : isAbs store.baseDir) {vs : List Visit}
    (hsep : ∀ v ∈ vs, v.Writes → ∀ hash, store.place hash ≠ v.target baseDir)
    (hI : ∀ fs', (∀ hash, store.blob fs' hash = store.blob w.fs hash) → I { w with fs := fs' }) :
    Prog.wp (handle answer) I (visitAll baseDir store vs) (fun r w' => ∃ fs',
      w' = { w with fs := fs' } ∧
      (∀ q, (∀ v ∈ vs, v.Writes → q ≠ v.target baseDir) →
        Os.content fs' q = Os.content w.fs q) ∧
      (r = none → ∀ v ∈ vs, v.Writes → ∃ u ∈ vs, u.Writes ∧ u.target baseDir = v.target baseDir ∧
        (assembled (store.blob w.fs) u.node.chunks).2 = true ∧
        Os.content fs' (v.target baseDir) =
          some (assembled (store.blob w.fs) u.node.chunks).1)) w := by
  induction vs generalizing w with
  | nil => exact ⟨w.fs, rfl, fun _ _ => rfl, fun _ v hv => nomatch hv⟩
  | cons v vs ih =>
    rw [List.forall_mem_cons] at hsep
    have hblob {fs' : Os.Fs} (h : ∀ q, (v.Writes → q ≠ v.target baseDir) →
        Os.content fs' q = Os.content w.fs q) (hash : Bytes) :
        store.blob fs' hash = store.blob w.fs hash := h _ fun hv => hsep.1 hv hash
    refine Prog.wp_bind.2 (Prog.wp_mono (visit_spec hb hs hsep.1
      fun fs' h => hI fs' (hblob h)) ?_)
    rintro r _ ⟨fs₁, rfl, heff⟩
    cases r with
    | some fault =>
      refine ⟨fs₁, rfl, fun q hq => heff.elsewhere q (hq v List.mem_cons_self), ?_⟩
      exact fun hr => nomatch hr
    | none =>
      have hsame := hblob heff.elsewhere
      refine Prog.wp_mono (ih (w := { w with fs := fs₁ }) hsep.2
        fun fs' h => hI fs' fun hash => (h hash).trans (hsame hash)) ?_
      rintro r _ ⟨fs', rfl, helse, hlast⟩
      simp only [assembled_congr hsame] at hlast
      refine ⟨fs', rfl, fun q hq => ?_, fun hr u hu huw => ?_⟩
      · rw [List.forall_mem_cons] at hq
        exact (helse q hq.2).trans (heff.elsewhere q hq.1)
      · -- The last visit of the path is among the later ones, or it is this one.
        by_cases hlater : ∃ u' ∈ vs, u'.Writes ∧ u'.target baseDir = u.target baseDir
        · obtain ⟨u', hu', huw', htarget⟩ := hlater
          obtain ⟨x, hx, hxw, hxt, hx'⟩ := hlast hr u' hu' huw'
          exact ⟨x, List.mem_cons_of_mem v hx, hxw, hxt.trans htarget, htarget ▸ hx'⟩
        · push Not at hlater
          rcases List.mem_cons.1 hu with rfl | hu
          · refine ⟨u, List.mem_cons_self, huw, rfl, ?_⟩
            rcases heff.there huw with ⟨hcont, hdone⟩ | ⟨hne, -⟩
            · refine ⟨hdone.1 rfl, ?_⟩
              exact (helse _ fun x hx hxw => (hlater x hx hxw).symm).trans hcont
            · exact (hne rfl).elim
          · exact (hlater u hu huw rfl).elim

theorem wp_reconstructFiles {node : Option ManifestNode} {Q : Option Fault → World ν → Prop}
    (h : Prog.wp (handle answer) I (visitAll baseDir store (visits node)) Q w) :
    Prog.wp (handle answer) I (reconstructFiles baseDir node store) (fun r => Q r.2) w := by
  rw [← reconstructFiles_eq] at h
  exact Prog.wp_bind.1 h

end Spec

end FileSync.Cli
