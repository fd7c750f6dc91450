import FileSync.Cli.Containment
import FileSync.Cli.Sync

/-!
# Cli — what the deletions take away

After the files are written, the sync command removes what `DiffTrees` lists as deleted, with
`os.Remove`; an error is logged and passed over (`cmd/p2p-file-sync/main.go`).  Of a directory that
the peer has not, only its own path is listed, and `os.Remove` takes no directory away that has
something in it.

* `spared_fetchAndWrite`: up to the deletions, nothing changes at or below a local path that the
  peer has not.
* `gone_iff`: such a path is gone at the end just when it is listed and nothing stands below it.
* `deletions_iff`: every such path is gone just when each is a file or an empty directory, and the
  hashes of the two sides differ above it.
-/

open Sha256 Filepath

namespace FileSync.Cli

open Proto (ManifestNode Request Exchange)
open Cas (BlobStore Chunk dirPermissions filePermissions tmpSuffix)
open Merkle (Visible Tree buildNode buildFromFS)
open Os (Childless tryRemove)

/-! ### The deletion loop -/

section Loop

variable {ν : Type} {answer : Request → ν → Exchange × ν}

/-- Where a path of the result is. -/
def deletedPlace (absDir path : Bytes) : List Bytes := resolve (join [absDir, path])

/-- **The loop tries to remove each path in turn.** -/
theorem run_deleteAll (absDir : Bytes) (paths : List Bytes) (w : World ν) :
    (deleteAll absDir paths).run (handle answer) w =
      ((), { w with fs := (paths.map (deletedPlace absDir)).foldl tryRemove w.fs }) := by
  induction paths generalizing w with
  | nil => rfl
  | cons p paths ih =>
    have hstep : ((Sys.remove (join [absDir, p])).run (handle answer) w).2 =
        { w with fs := tryRemove w.fs (deletedPlace absDir p) } := by
      change (w.after (Os.remove w.fs (deletedPlace absDir p))).2 = _
      rw [tryRemove]
      cases Os.remove w.fs (deletedPlace absDir p) <;> rfl
    rw [deleteAll, Prog.run_bind, hstep, ih]
    rfl

end Loop

/-! ### What is spared before -/

section Calls

variable {P : Change → Prop} {store : BlobStore}

theorem within_writeData {path data : Bytes} (h : P (.write path data)) :
    Prog.Within (Changes P) (BlobStore.writeData path data) := by
  unfold BlobStore.writeData
  split
  · exact Prog.within_ret _
  · exact within_change h (fun _ => Prog.within_ret _) (Prog.within_ret _)

theorem within_writeNew {path data : Bytes}
    (hdir : P (.mkdirAll (dir path) dirPermissions))
    (hopen : P (.openTrunc (path ++ tmpSuffix) filePermissions))
    (hwrite : P (.write (path ++ tmpSuffix) data))
    (hrename : P (.rename (path ++ tmpSuffix) path))
    (hremove : P (.remove (path ++ tmpSuffix))) :
    Prog.Within (Changes P) (BlobStore.writeNew path data) := by
  have hclean (e : Err) : Prog.Within (Changes P) (do
      let _ ← Sys.remove (path ++ tmpSuffix)
      return (.error e : Except Err Bool)) :=
    within_change hremove (fun _ => Prog.within_ret _) (Prog.within_ret _)
  refine within_change hdir (fun _ => Prog.within_ret _) ?_
  refine within_change hopen (fun _ => Prog.within_ret _) ?_
  refine Prog.within_bind.2 ⟨within_writeData hwrite, fun r _ => ?_⟩
  rcases r with e | _
  · exact hclean e
  · exact within_change hrename (fun _ => hclean _) (Prog.within_ret _)

theorem within_missingOf (hashes : List Bytes) :
    Prog.Within (Changes P) (missingOf store hashes) := by
  induction hashes with
  | nil => exact Prog.within_ret _
  | cons hash hashes ih =>
    refine Prog.within_bind.2 ⟨Prog.within_call_bind.2 ⟨trivial, fun r => ?_⟩, fun _ _ =>
      Prog.within_bind.2 ⟨ih, fun _ _ => Prog.within_ret _⟩⟩
    cases r <;> exact Prog.within_ret _

mutual

theorem within_collectMissingChunks :
    ∀ n : ManifestNode, Prog.Within (Changes P) (collectMissingChunks store n)
  | { children := cs, .. } => by
    rw [collectMissingChunks]
    exact Prog.within_bind.2 ⟨within_missingOf _, fun _ _ =>
      Prog.within_bind.2 ⟨within_collectMissingBelow cs, fun _ _ => Prog.within_ret _⟩⟩

theorem within_collectMissingBelow :
    ∀ cs : List ManifestNode, Prog.Within (Changes P) (collectMissingBelow store cs)
  | [] => Prog.within_ret _
  | c :: cs => by
    rw [collectMissingBelow]
    exact Prog.within_bind.2 ⟨within_collectMissingChunks c, fun _ _ =>
      Prog.within_bind.2 ⟨within_collectMissingBelow cs, fun _ _ => Prog.within_ret _⟩⟩

end

theorem within_download (hput : ∀ c : Proto.Chunk, Prog.Within (Changes P) (store.put (casChunk c)))
    (batches : List (List Bytes)) (n : ℕ) :
    Prog.Within (Changes P) (download store batches n) := by
  have hstore (cs : List Proto.Chunk) (n : ℕ) :
      Prog.Within (Changes P) (storeChunks store cs n) := by
    induction cs generalizing n with
    | nil => exact Prog.within_ret _
    | cons c cs ih =>
      refine Prog.within_bind.2 ⟨hput c, fun r _ => ?_⟩
      rcases r with e | new
      · exact ih n
      · exact ih (n + 1)
  induction batches generalizing n with
  | nil => exact Prog.within_ret _
  | cons batch batches ih =>
    refine Prog.within_bind.2 ⟨Prog.within_call_bind.2 ⟨trivial, fun _ => Prog.within_ret _⟩,
      fun r _ => ?_⟩
    rcases r with e | resp
    · exact Prog.within_ret _
    · exact Prog.within_bind.2 ⟨hstore _ n, fun n _ => ih n⟩

end Calls

section Spared

variable {absDir : Bytes} {q r : List Bytes}

/-- What is below a visible path is not on the way to the store, nor in it. -/
theorem not_prefix_store (habs : isAbs absDir) (hq : q ≠ []) (hvis : Visible q) (x : List Bytes) :
    ¬ resolve absDir ++ (q ++ r) <+: resolve (storageDir absDir) ++ x := by
  rw [resolve_storageDir habs, List.append_assoc, List.prefix_append_right_inj]
  cases q with
  | nil => exact (hq rfl).elim
  | cons c q =>
    rw [List.cons_append, storageNames, List.cons_append, List.cons_prefix_cons]
    rintro ⟨rfl, -⟩
    exact absurd (hvis _ List.mem_cons_self) (by decide)

theorem spares_put (habs : isAbs absDir) (hq : q ≠ []) (hvis : Visible q) (chunk : Chunk)
    (hne : chunk.hash ≠ []) :
    Prog.Within (Changes (Change.Spares (resolve absDir ++ (q ++ r))))
      ((storeOf absDir).put chunk) := by
  have hs : isAbs (storeOf absDir).baseDir := isAbs_storageDir habs
  obtain ⟨d, c, hplace, htemp, hdir⟩ := BlobStore.place_eq_concat (s := storeOf absDir) hs hne
  have haway := not_prefix_store (r := r) habs hq hvis
  have hpath : resolve ((storeOf absDir).chunkPath chunk.hashHex) ≠ resolve absDir ++ (q ++ r) := by
    rw [Chunk.hashHex, BlobStore.resolve_chunkPath hs, hplace, List.append_assoc]
    exact fun h => haway _ ⟨[], (List.append_nil _).trans h.symm⟩
  have htmp : resolve ((storeOf absDir).chunkPath chunk.hashHex ++ tmpSuffix) ≠
      resolve absDir ++ (q ++ r) := by
    change (storeOf absDir).temp chunk.hash ≠ _
    rw [htemp, List.append_assoc]
    exact fun h => haway _ ⟨[], (List.append_nil _).trans h.symm⟩
  refine Prog.within_call_bind.2 ⟨trivial, fun r => ?_⟩
  rcases r with e | _
  · exact within_writeNew (by rw [Chunk.hashHex, Change.Spares, hdir]; exact haway d) htmp htmp
      ⟨htmp, hpath⟩ htmp
  · exact Prog.within_ret _

/-- What a manifest has not, its reconstruction does not touch. -/
theorem spares_visit (habs : isAbs absDir) {root : ManifestNode} (hroot : root.Orderly)
    (hno : ∀ m, ¬ root.At q m) {v : Visit} (hv : v ∈ visits (some root)) (store : BlobStore) :
    Prog.Within (Changes (Change.Spares (resolve absDir ++ (q ++ r)))) (visit absDir store v) := by
  obtain ⟨s, -, hs, htarget⟩ := at_of_mem_visits habs hroot hv
  have haway : ¬ resolve absDir ++ (q ++ r) <+: v.target absDir := by
    rw [htarget, List.prefix_append_right_inj]
    intro hpre
    obtain ⟨b, -, hb, -, -⟩ := hs.above ((List.prefix_append q r).trans hpre)
    exact hno b hb
  have hne : v.target absDir ≠ resolve absDir ++ (q ++ r) := fun h => haway (h ▸ List.prefix_rfl)
  unfold visit
  split
  · exact within_change haway (fun _ => Prog.within_ret _) (Prog.within_ret _)
  · refine Prog.within_bind.2 ⟨within_reconstructFile ?_ hne (fun _ => hne) hne,
      fun _ _ => Prog.within_ret _⟩
    rw [Change.Spares, Visit.resolve_dir_path habs]
    exact fun h => haway (h.trans (List.dropLast_prefix _))

end Spared

/-- What `applyDiff` does before it deletes. -/
def fetchAndWrite (absDir : Bytes) (store : BlobStore) (root : ManifestNode)
    (diff : Diff.DiffResult) : Cmd (Go ℕ) := do
  let added ← collectMissingBelow store diff.added
  let modified ← collectMissingBelow store diff.modified
  match ← download store (Blocks.blocks batchSize (added ++ modified)) 0 with
  | (_, some e) => return .error (.err e)
  | (_, none) =>
  match ← reconstructFiles absDir (some root) store with
  | (_, some (.err e)) => return .error (.err (.wrap "reconstructing files" e))
  | (_, some fault) => return .error fault
  | (filesWritten, none) => return .ok filesWritten

theorem applyDiff_eq_fetchAndWrite (absDir : Bytes) (store : BlobStore) (root : ManifestNode)
    (diff : Diff.DiffResult) :
    applyDiff absDir store root diff = (do
      match ← fetchAndWrite absDir store root diff with
      | .error fault => return .error fault
      | .ok filesWritten => do
          deleteAll absDir diff.deleted
          return .ok filesWritten) := by
  rw [applyDiff, fetchAndWrite]
  simp only [Prog.bind_assoc]
  congr 1
  funext added
  congr 1
  funext modified
  congr 1
  funext r
  rcases r with ⟨n, _ | e⟩
  · dsimp only
    rw [Prog.bind_assoc]
    congr 1
    funext r
    rcases r with ⟨k, _ | ⟨_ | _ | _⟩⟩ <;> rfl
  · rfl

section Before

variable {ν : Type} {answer : Request → ν → Exchange × ν} {w w' : World ν} {absDir : Bytes}
  {root : ManifestNode} {diff : Diff.DiffResult}

/-- **Up to the deletions**, nothing changes at or below a visible path that the manifest has
not. -/
theorem spared_fetchAndWrite (answer : Request → ν → Exchange × ν) (w : World ν)
    (diff : Diff.DiffResult) (habs : isAbs absDir) (hroot : root.Orderly) {q : List Bytes}
    (hq : q ≠ []) (hvis : Visible q) (hno : ∀ m, ¬ root.At q m) (r : List Bytes) :
    Os.view ((fetchAndWrite absDir (storeOf absDir) root diff).run (handle answer) w).2.fs
        (resolve absDir ++ (q ++ r)) = Os.view w.fs (resolve absDir ++ (q ++ r)) := by
  have hspares : Prog.Within (Changes (Change.Spares (resolve absDir ++ (q ++ r))))
      (fetchAndWrite absDir (storeOf absDir) root diff) := by
    have hput (c : Proto.Chunk) := spares_put (r := r) habs hq hvis (casChunk c)
      (List.ne_nil_of_length_pos (by rw [casChunk, Digest.length_bytes]; decide))
    have hfiles : Prog.Within (Changes (Change.Spares (resolve absDir ++ (q ++ r))))
        (reconstructFiles absDir (some root) (storeOf absDir)) := by
      have hvisits := (within_visitAll (visits (some root))).2 fun v hv =>
        spares_visit (r := r) habs hroot hno hv (storeOf absDir)
      rw [← reconstructFiles_eq] at hvisits
      exact (Prog.within_bind.1 hvisits).1
    refine Prog.within_bind.2 ⟨within_collectMissingBelow _, fun _ _ => Prog.within_bind.2
      ⟨within_collectMissingBelow _, fun _ _ => Prog.within_bind.2
      ⟨within_download hput _ 0, fun r _ => ?_⟩⟩⟩
    rcases r with ⟨n, _ | e⟩
    · refine Prog.within_bind.2 ⟨hfiles, fun r _ => ?_⟩
      rcases r with ⟨k, _ | ⟨_ | _ | _⟩⟩ <;> exact Prog.within_ret _
    · exact Prog.within_ret _
  exact run_within_changes hspares
    (I := fun fs => Os.view fs (resolve absDir ++ (q ++ r)) = Os.view w.fs _)
    (fun c fs fs' _ hc hok hfs => (view_apply hc hok).trans hfs) rfl

theorem applyDiff_deletes {k : ℕ}
    (h : (applyDiff absDir (storeOf absDir) root diff).run (handle answer) w = (.ok k, w')) :
    w'.fs = (diff.deleted.map (deletedPlace absDir)).foldl tryRemove
      ((fetchAndWrite absDir (storeOf absDir) root diff).run (handle answer) w).2.fs := by
  rw [applyDiff_eq_fetchAndWrite, Prog.run_bind] at h
  generalize (fetchAndWrite absDir (storeOf absDir) root diff).run (handle answer) w = out at h ⊢
  obtain ⟨fault | n, w₁⟩ := out
  · cases h
  · dsimp only at h
    rw [Prog.run_bind, run_deleteAll] at h
    obtain ⟨-, rfl⟩ := Prod.mk.inj h
    rfl

end Before

/-! ### What is gone -/

section Gone

variable {ν : Type} {answer : Request → ν → Exchange × ν} {w w' : World ν} {absDir : Bytes}
  {here root : ManifestNode}

/-- The places of what is listed as deleted. -/
theorem mem_deletedPlaces (habs : isAbs absDir) {ord : Diff.DiffOrder} (hhere : here.Orderly)
    (hroot : root.Distinct) {p : List Bytes} :
    p ∈ (Diff.diffNode ord [] here root []).deleted.map (deletedPlace absDir) ↔
      ∃ q n, p = resolve absDir ++ q ∧ here.At q n ∧ (∀ m, ¬ root.At q m) ∧
        Diff.Compared here root q := by
  rw [List.mem_map]
  constructor
  · rintro ⟨_, hmem, rfl⟩
    obtain ⟨q, n, hn, rfl, hno, hcomp⟩ :=
      (Diff.mem_deleted_iff hhere hroot (List.forall_mem_nil Plain)).1 hmem
    exact ⟨q, n, resolve_join_relative habs (hhere.plain_of_at hn), hn, hno, hcomp⟩
  · rintro ⟨q, n, rfl, hn, hno, hcomp⟩
    exact ⟨relative q, (Diff.mem_deleted_iff hhere hroot (List.forall_mem_nil Plain)).2
      ⟨q, n, hn, rfl, hno, hcomp⟩, resolve_join_relative habs (hhere.plain_of_at hn)⟩

/-- Of two paths that are listed, none lies below the other. -/
theorem antichain_deletedPlaces (habs : isAbs absDir) {ord : Diff.DiffOrder}
    (hhere : here.Orderly) (hroot : root.Distinct) :
    ∀ p ∈ (Diff.diffNode ord [] here root []).deleted.map (deletedPlace absDir),
      ∀ p' ∈ (Diff.diffNode ord [] here root []).deleted.map (deletedPlace absDir),
        p <+: p' → p = p' := by
  intro p hp p' hp' hpre
  obtain ⟨q, n, rfl, -, hno, -⟩ := (mem_deletedPlaces habs hhere hroot).1 hp
  obtain ⟨q', n', rfl, -, -, hcomp⟩ := (mem_deletedPlaces habs hhere hroot).1 hp'
  rw [List.prefix_append_right_inj] at hpre
  by_contra hne
  obtain ⟨a, b, -, hb, -⟩ := hcomp q hpre fun h => hne (by rw [h])
  exact hno b hb

/-- **What is gone.**  A local path that the other side lacks is gone at the end just when it is
listed and nothing stood below it. -/
theorem gone_iff (habs : isAbs absDir) {ord : Diff.DiffOrder} (hhere : Advertised here)
    (hroot : root.Orderly) {k : ℕ}
    (h : (applyDiff absDir (storeOf absDir) root (Diff.diffNode ord [] here root [])).run
      (handle answer) w = (.ok k, w')) {q : List Bytes} {n : ManifestNode} (hn : here.At q n)
    (hthere : Os.view w.fs (resolve absDir ++ q) ≠ none) (hno : ∀ m, ¬ root.At q m) :
    Os.view w'.fs (resolve absDir ++ q) = none ↔
      Diff.Compared here root q ∧ Childless w.fs (resolve absDir ++ q) := by
  have hq : q ≠ [] := by
    rintro rfl
    exact hno root (.here root)
  have hspared := spared_fetchAndWrite answer w (Diff.diffNode ord [] here root []) habs hroot hq
    (hhere.visible hn) hno
  have hsame := hspared []
  rw [List.append_nil] at hsame
  have hchildless : Childless ((fetchAndWrite absDir (storeOf absDir) root
      (Diff.diffNode ord [] here root [])).run (handle answer) w).2.fs (resolve absDir ++ q) ↔
      Childless w.fs (resolve absDir ++ q) :=
    forall_congr' fun c => by rw [List.append_assoc, hspared [c]]
  rw [applyDiff_deletes h, Os.view_foldl_tryRemove (antichain_deletedPlaces habs hhere.orderly
    hroot.distinct), hsame, hchildless, mem_deletedPlaces habs hhere.orderly hroot.distinct]
  constructor
  · rintro (hnone | ⟨⟨q', n', heq, -, -, hcomp⟩, hbare⟩)
    · exact (hthere hnone).elim
    · obtain rfl := List.append_cancel_left heq
      exact ⟨hcomp, hbare⟩
  · rintro ⟨hcomp, hbare⟩
    exact .inr ⟨⟨q, n, rfl, hn, hno, hcomp⟩, hbare⟩

/-- A node of the directory's manifest stands in the directory. -/
theorem view_of_at {m : UInt32} {es : List (Bytes × Os.Entry)} (hwf : w.fs.WF)
    (hreach : Os.reach w.fs (resolve absDir) = some (.dir m es)) {q : List Bytes}
    {n : ManifestNode}
    (hn : (convertTreeToManifest (buildNode (base absDir) (.dir m es))).At q n) :
    Os.view w.fs (resolve absDir ++ q) ≠ none := by
  obtain ⟨-, x, hx, -⟩ := (at_buildNode_iff (Os.wf_reach hwf _ _ hreach)).1 hn
  rw [Os.view, Os.reach_append, hreach, hx]
  simp

/-- **Deletions.**  For every directory and every manifest of a directory, whatever the order of the
maps: when the command has completed, no local path that the manifest lacks is left, just when each
is a file or an empty directory, and nodes above it have different hashes on the two sides. -/
theorem deletions_iff (ord : Diff.DiffOrder) (habs : isAbs absDir) (hwf : w.fs.WF) {t : Tree}
    (ht : ((buildFromFS absDir).run (handle answer) w).1 = .ok t)
    (hhere : t.root.map convertTreeToManifest = some here) (hroot : Advertised root)
    {d : Diff.DiffResult}
    (hd : Diff.diffTrees ord (t.root.map convertTreeToManifest) (some root) = .ok d) {k : ℕ}
    (h : (applyDiff absDir (storeOf absDir) root d).run (handle answer) w = (.ok k, w')) :
    (∀ q n, here.At q n → (∀ m, ¬ root.At q m) →
        Os.view w'.fs (resolve absDir ++ q) = none) ↔
      ∀ q n, here.At q n → (∀ m, ¬ root.At q m) →
        Childless w.fs (resolve absDir ++ q) ∧
          ∀ u a b, u <+: q → here.At u a → root.At u b → a.hash ≠ b.hash := by
  obtain ⟨m, es, hreach, rfl⟩ := Merkle.run_buildFromFS ht
  obtain rfl := Option.some.inj hhere
  obtain rfl := Except.ok.inj hd
  have hadv := advertised_of_reach w.fs absDir hwf hreach
  constructor
  · intro hgone q n hn hno
    obtain ⟨hcomp, hbare⟩ := (gone_iff habs hadv hroot.orderly h hn (view_of_at hwf hreach hn)
      hno).1 (hgone q n hn hno)
    refine ⟨hbare, fun u a b hu ha hb => ?_⟩
    obtain ⟨a', b', ha', hb', hne⟩ := hcomp u hu (by rintro rfl; exact hno b hb)
    rwa [hadv.orderly.at_unique ha ha', hroot.orderly.at_unique hb hb']
  · intro hall q n hn hno
    obtain ⟨hbare, hhash⟩ := hall q n hn hno
    refine (gone_iff habs hadv hroot.orderly h hn (view_of_at hwf hreach hn) hno).2
      ⟨fun u hu hne => ?_, hbare⟩
    obtain ⟨a, v, ha, rfl, hav⟩ := hn.above hu
    by_cases hb : ∃ b, root.At u b
    · obtain ⟨b, hb⟩ := hb
      exact ⟨a, b, ha, hb, hhash u a b hu ha hb⟩
    · -- The path would stand below one that is lacking, and so has nothing below it.
      obtain ⟨hbare', -⟩ := hall u a ha fun b hb' => hb ⟨b, hb'⟩
      cases v with
      | nil => exact (hne (List.append_nil u).symm).elim
      | cons c v =>
        have hpre : u ++ [c] <+: u ++ c :: v := ⟨v, by simp⟩
        obtain ⟨x, -, hx, -, -⟩ := hn.above hpre
        have hthere := view_of_at hwf hreach hx
        rw [← List.append_assoc] at hthere
        exact (hthere (hbare' c)).elim

end Gone

/-- The manifest of an empty directory. -/
def emptyRoot : ManifestNode := convertTreeToManifest (buildNode [47] (.dir 0o755 []))

/-- A directory `/d` with an entry `x` and an empty store, and a peer with an empty directory. -/
def staleWorld (x : Os.Entry) : World (List Exchange) where
  fs := some (.dir 0o755 [([100], .dir 0o755 [([120], x),
    ([46, 115, 116, 111, 114, 97, 103, 101], .dir 0o700 [([99, 104, 117, 110, 107, 115],
      .dir 0o700 [])])])])
  umask := 0o022
  net := [.ok ⟨.manifestResponse, .ok ⟨some emptyRoot⟩, .error .eof⟩]

theorem advertised_emptyRoot : Advertised emptyRoot :=
  advertised_of_reach (some (.dir 0o755 [])) [47]
    (Os.wf_some.2 (.dir _ (by decide) (by decide) (by simp))) rfl

theorem not_at_emptyRoot {c : Bytes} {q : List Bytes} {m : ManifestNode} :
    ¬ emptyRoot.At (c :: q) m := by
  rintro (_ | ⟨hc, -⟩)
  exact nomatch hc

/-- The manifest of `/d` with an empty file `x`. -/
def staleRoot : ManifestNode :=
  convertTreeToManifest (buildNode [100] (.dir 0o755 [([120], .file 0o644 []),
    ([46, 115, 116, 111, 114, 97, 103, 101], .dir 0o700 [([99, 104, 117, 110, 107, 115],
      .dir 0o700 [])])]))

theorem wf_staleWorld : (staleWorld (.file 0o644 [])).fs.WF := by
  refine Os.wf_some.2 (.dir _ (by decide) (by decide) (List.forall_mem_singleton.2 ?_))
  refine .dir _ (by decide) (by decide) (List.forall_mem_cons.2 ⟨.file _ _,
    List.forall_mem_singleton.2 ?_⟩)
  exact .dir _ (by decide) (by decide) (List.forall_mem_singleton.2
    (.dir _ (by decide) (by decide) (by simp)))

/-- The file `/d/x` is gone after the sync with a peer that has no `x`. -/
theorem deletions_iff_file :
    Advertised emptyRoot ∧
      let out := (applyDiff [47, 100] (storeOf [47, 100]) emptyRoot
        (Diff.diffNode (.listed _ _) [] staleRoot emptyRoot [])).run (handle scripted)
          (staleWorld (.file 0o644 []))
      out.1 = .ok 0 ∧ ∀ q n, staleRoot.At q n → (∀ m, ¬ emptyRoot.At q m) →
        Os.view out.2.fs (resolve [47, 100] ++ q) = none := by
  refine ⟨advertised_emptyRoot, ?_⟩
  intro out
  have hrun : out.1 = .ok 0 := by decide +kernel
  refine ⟨hrun, (deletions_iff (.listed _ _) (by decide) wf_staleWorld rfl rfl advertised_emptyRoot
    rfl (Prod.ext hrun rfl)).2 ?_⟩
  have hhash : staleRoot.hash ≠ emptyRoot.hash := by decide +kernel
  rintro _ n (_ | ⟨hc, hn⟩) hno
  · exact absurd (.here emptyRoot) (hno emptyRoot)
  · obtain rfl := List.mem_singleton.1 hc
    rcases hn with _ | ⟨hc, -⟩
    · refine ⟨fun c => rfl, fun u a b _ ha hb => ?_⟩
      cases u with
      | nil => rwa [Proto.ManifestNode.at_nil.1 ha, Proto.ManifestNode.at_nil.1 hb]
      | cons c u => exact (not_at_emptyRoot hb).elim
    · exact nomatch hc

/-- The directory `/d/x`, with a file in it, outlives the sync with a peer that has no `x`. -/
theorem nonempty_directory_not_deleted :
    Advertised emptyRoot ∧ (∀ m, ¬ emptyRoot.At [[120]] m) ∧
      let out := (syncCmd (.listed _ _) (.ok ⟨[], none⟩) [47, 100]).run (handle scripted)
        (staleWorld (.dir 0o755 [([121], .file 0o644 [])]))
      out.1 = .ok (.complete 0) ∧ Os.view out.2.fs [[100], [120]] ≠ none ∧
        Os.view out.2.fs [[100], [120], [121]] ≠ none :=
  ⟨advertised_emptyRoot, fun _ => not_at_emptyRoot, by decide +kernel⟩

end FileSync.Cli
