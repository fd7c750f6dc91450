import FileSync.Cli.Complete
import FileSync.Cli.Identical

/-!
# Cli — when a sync mirrors the directory of its peer

A sync that completes has made the directories of the peer's manifest, written its files and removed
what the manifest lacks (`cmd/p2p-file-sync/main.go`).  The directory then mirrors that of the peer
except for two things that the command does not do: it creates no empty file, and it does not remove
a directory with something in it.

* `Mirrors absDir fs e`: the visible entries of the directory are those of `e`, modes apart.
* `Course.mirrors_iff`: when a completed sync mirrors the peer.
* `sync_mirrors_iff`: the same for a sync with the daemon, which completes.
* `Mirrors.hash`: directories that mirror each other have the same root hash.
-/

open Sha256 Filepath

namespace FileSync.Cli

open Proto (ManifestNode Request Exchange)
open Cas (BlobStore Chunk chunksOf)
open Merkle (Visible buildNode)
open Os (IsDir Childless)

/-- The visible entries of a directory are those of `e`, modes apart. -/
def Mirrors (absDir : Bytes) (fs : Os.Fs) (e : Os.Entry) : Prop :=
  ∀ q, Visible q → (Os.view fs (resolve absDir ++ q)).map (·.withMode 0) =
    (Os.view (some e) q).map (·.withMode 0)

/-- Nodes with the same hash have the same places below them and the same chunks. -/
def Faithful (l r : ManifestNode) : Prop :=
  ∀ {q q' a b}, l.At q a → r.At q' b → a.hash = b.hash →
    (∀ s, (∃ m, a.At s m) ↔ ∃ m, b.At s m) ∧ ∀ hash, HasChunk a hash ↔ HasChunk b hash

/-- A chunk of a visible file of `e` is not what the store has under its hash, though both have that
SHA-256. -/
def Collides (store : BlobStore) (fs : Os.Fs) (e : Os.Entry) : Prop :=
  ∃ q c, Visible q ∧ Os.content (some e) q = some c ∧ ∃ k ∈ chunksOf c, ∃ x,
    store.blob fs k.hash = some x ∧ x ≠ k.data ∧ sum256 x = sum256 k.data

/-- Every visible empty file of `e` is in the directory, and empty. -/
def EmptyFilesThere (absDir : Bytes) (fs : Os.Fs) (e : Os.Entry) : Prop :=
  ∀ q, Visible q → Os.content (some e) q = some [] →
    Os.content fs (resolve absDir ++ q) = some []

/-- No visible directory that `e` lacks has something in it. -/
def StrangersBare (absDir : Bytes) (fs : Os.Fs) (e : Os.Entry) : Prop :=
  ∀ q, Visible q → Os.view (some e) q = none → Childless fs (resolve absDir ++ q)

theorem Mirrors.hash {absDir name : Bytes} {fs : Os.Fs} {e e' : Os.Entry} (h : Mirrors absDir fs e)
    (he : e.WF) (he' : e'.WF) (hreach : Os.reach fs (resolve absDir) = some e') :
    (buildNode (base absDir) e').hash = (buildNode name e).hash := by
  refine Merkle.hash_of_contents he' he (fun q hq => ?_) _ _
  rw [← view_of_reach hreach]
  exact h q hq

/-! ### What a completed sync leaves behind -/

/-- A file is put together again from its chunks. -/
theorem contents_chunksOf {store : BlobStore} {fs : Os.Fs} {c : Bytes}
    (h : ∀ k ∈ chunksOf c, store.blob fs k.hash = some k.data) :
    contents (store.blob fs) ((chunksOf c).map (·.hash)) = c := by
  have hdata : (chunksOf c).map (·.data) = Blocks.blocks Cas.chunkSize c := by
    rw [chunksOf, List.map_map]
    exact List.map_id _
  calc contents (store.blob fs) ((chunksOf c).map (·.hash))
      = ((chunksOf c).map (·.data)).flatten := by
        rw [contents, List.map_map]
        refine congrArg List.flatten (List.map_congr_left fun k hk => ?_)
        simp [h k hk]
    _ = c := by rw [hdata, Blocks.flatten_blocks (by decide)]

theorem view_foldl_tryRemove_of_notMem {fs : Os.Fs} {q : List Bytes} {ps : List (List Bytes)}
    (h : q ∉ ps) : Os.view (ps.foldl Os.tryRemove fs) q = Os.view fs q := by
  induction ps generalizing fs with
  | nil => rfl
  | cons p ps ih =>
    rw [List.mem_cons, not_or] at h
    rw [List.foldl_cons, ih h.2, Os.view_tryRemove_of_ne h.1]

/-- What is seen of a file apart from its mode is its content. -/
theorem map_withMode_file {fs : Os.Fs} {p : List Bytes} {c : Bytes} :
    (Os.view fs p).map (·.withMode 0) = some (.file 0 c) ↔ Os.content fs p = some c := by
  rw [Os.content_eq_some, Option.map_eq_some_iff]
  constructor
  · rintro ⟨_ | m, hk, heq⟩
    · cases heq
      exact ⟨_, hk⟩
    · cases heq
  · rintro ⟨m, hm⟩
    exact ⟨_, hm, rfl⟩

theorem map_withMode_dir {fs : Os.Fs} {p : List Bytes} (h : IsDir fs p) :
    (Os.view fs p).map (·.withMode 0) = some (.dir 0) := by
  obtain ⟨m, hm⟩ := h
  rw [hm]
  rfl

/-- The files of a directory's manifest are apart from its store. -/
theorem apart_of_advertised {absDir : Bytes} (habs : isAbs absDir) {root : ManifestNode}
    (hroot : Advertised root) : Apart absDir (storeOf absDir) (visits (some root)) := by
  intro v hv _ hash
  obtain ⟨s, -, hn, htarget⟩ := at_of_mem_visits habs hroot.orderly hv
  rw [htarget]
  exact place_ne_visible habs (hroot.visible hn) hash

section Course

variable {ν : Type} {answer : Request → ν → Exchange × ν} {ord : Diff.DiffOrder}
  {absDir name : Bytes} {here root : ManifestNode} {w w' : World ν} {k : ℕ} {e : Os.Entry}

/-- What a completed sync leaves at the places of the manifest. -/
structure Built (absDir : Bytes) (root : ManifestNode) (w w' : World ν) : Prop where
  dirs : ∀ q n, root.At q n → n.isDir = true → IsDir w'.fs (resolve absDir ++ q)
  files : ∀ q n, root.At q n → n.isDir = false → Os.content w'.fs (resolve absDir ++ q) =
    if n.chunks = [] then Os.content w.fs (resolve absDir ++ q)
    else some (contents ((storeOf absDir).blob w'.fs) n.chunks)
  blobs : ∀ hash, HasChunk root hash → ∃ c, (storeOf absDir).blob w'.fs hash = some c

theorem Course.built (h : Course answer ord absDir here root w w' k) (habs : isAbs absDir)
    (hhere : here.Orderly) (hroot : Advertised root) : Built absDir root w w' := by
  obtain ⟨w₁, w₂, hg, hblob, hrun, hdel, hsite⟩ := h.written
  have hvisits := run_reconstructFiles answer absDir (storeOf absDir) (some root) w₁
  rw [hrun] at hvisits
  -- A place of the manifest is not removed.
  have hstays (q n) (hn : root.At q n) :
      Os.view w'.fs (resolve absDir ++ q) = Os.view w₂.fs (resolve absDir ++ q) := by
    rw [hdel, view_foldl_tryRemove_of_notMem]
    intro hmem
    obtain ⟨q', n', heq, -, hno, -⟩ :=
      (mem_deletedPlaces habs hhere hroot.orderly.distinct).1 hmem
    exact hno n (List.append_cancel_left heq ▸ hn)
  refine ⟨fun q n hn hdir => ?_, fun q n hn hfile => ?_, fun hash hhash => ?_⟩
  · by_cases hq : q = []
    · rw [hq, List.append_nil]
      exact hsite.dir
    · rw [IsDir, hstays q n hn]
      exact isDir_of_at habs hroot.orderly hvisits hq hn hdir
  · have hq : q ≠ [] := by
      rintro rfl
      rw [ManifestNode.at_nil.1 hn, hroot.isDir] at hfile
      cases hfile
    have hcontents : contents ((storeOf absDir).blob w'.fs) n.chunks =
        contents ((storeOf absDir).blob w₁.fs) n.chunks := by
      rw [contents, contents]
      simp only [hsite.blob]
    have hs : isAbs (storeOf absDir).baseDir := isAbs_storageDir habs
    rw [Os.content_of_view (hstays q n hn), content_visitAll habs hs hroot.orderly
      (apart_of_advertised habs hroot) hvisits hq hn hfile, hcontents,
      Os.content_of_view (hg.outside (not_store_above habs (hroot.visible hn)))]
  · rw [hsite.blob]
    exact hblob hash hhash

/-- A file with chunks is made of them. -/
theorem Built.written (h : Built absDir root w w') (hsound : (storeOf absDir).Sound w'.fs) :
    Written absDir root w'.fs := by
  intro q n hn hfile hne
  have hall : (assembled ((storeOf absDir).blob w'.fs) n.chunks).2 = true :=
    assembled_of_blobs fun hash hmem => h.blobs hash ⟨q, n, hn, hmem⟩
  refine ⟨_, by rw [h.files q n hn hfile, if_neg hne], ?_⟩
  rw [← (assembled_complete hall).1]
  exact pieces_assembled hsound hall

/-- The places of a directory's manifest are those of its visible entries. -/
theorem exists_at_iff (he : e.WF) {q : List Bytes} (hvis : Visible q) :
    (∃ n, (convertTreeToManifest (buildNode name e)).At q n) ↔ Os.view (some e) q ≠ none := by
  rw [Os.view, Ne, Option.map_eq_none_iff, ← Ne, Option.ne_none_iff_exists']
  constructor
  · rintro ⟨n, hn⟩
    obtain ⟨-, x, hx, -⟩ := (at_buildNode_iff he).1 hn
    exact ⟨x, hx⟩
  · rintro ⟨x, hx⟩
    exact ⟨_, (at_buildNode_iff he).2 ⟨hvis, x, hx, rfl⟩⟩

/-- A place of the manifest mirrors that of the peer if it is not that of an empty file. -/
theorem Built.mirrors_at (h : Built absDir root w w') (he : e.WF)
    (hroot : root = convertTreeToManifest (buildNode name e))
    (hno : ¬ Collides (storeOf absDir) w'.fs e) (hsound : (storeOf absDir).Sound w'.fs)
    {q : List Bytes} (hvis : Visible q) (hthere : Os.view (some e) q ≠ none) :
    (Os.view w'.fs (resolve absDir ++ q)).map (·.withMode 0) =
        (Os.view (some e) q).map (·.withMode 0) ↔
      (Os.content (some e) q = some [] → Os.content w.fs (resolve absDir ++ q) = some []) := by
  obtain ⟨n, hn'⟩ := (exists_at_iff he hvis).2 hthere
  have hn : root.At q n := hroot ▸ hn'
  rcases kind_of_at he hn' with ⟨hdir, -, hthere⟩ | ⟨hfile, c, hc, hchunks⟩
  · rw [map_withMode_dir (h.dirs q n hn hdir), map_withMode_dir hthere]
    obtain ⟨m, hm⟩ := hthere
    simp [Os.content, hm]
  · rw [map_withMode_file.2 hc, map_withMode_file, h.files q n hn hfile, hc, Option.some.injEq]
    by_cases hnil : c = []
    · subst hnil
      simp [hchunks, chunksOf, Blocks.blocks_nil]
    · have hne : n.chunks ≠ [] := by
        rw [hchunks, Ne, List.map_eq_nil_iff, chunksOf_eq_nil]
        exact hnil
      rw [if_neg hne, hchunks, contents_chunksOf]
      · simp [hnil]
      · intro k hk
        obtain ⟨x, hx⟩ := h.blobs k.hash ⟨q, n, hn, hchunks ▸ List.mem_map_of_mem hk⟩
        rw [hx]
        by_contra hneq
        refine hno ⟨q, c, hvis, hc, k, hk, x, hx, fun heq => hneq (heq ▸ rfl), ?_⟩
        exact Digest.ext_bytes ((hsound _ _ hx).trans (Cas.hash_of_mem_chunksOf hk).symm)

/-- The store is not below a visible entry. -/
theorem not_store_below (habs : isAbs absDir) {q : List Bytes} (hq : q ≠ []) (hvis : Visible q)
    (r : List Bytes) : ¬ resolve (storageDir absDir) <+: resolve absDir ++ (q ++ r) := by
  obtain ⟨c, q, rfl⟩ := List.exists_cons_of_ne_nil hq
  rw [resolve_storageDir habs, List.prefix_append_right_inj, storageNames, List.cons_append,
    List.cons_prefix_cons]
  rintro ⟨rfl, -⟩
  exact absurd (hvis _ List.mem_cons_self) (by decide)

/-- A place that the manifest lacks is empty at the end if it was, or if it is listed as deleted and
nothing stood below it. -/
theorem Course.gone_iff (h : Course answer ord absDir here root w w' k) (habs : isAbs absDir)
    (hhere : here.Orderly) (hroot : root.Orderly) {q : List Bytes} (hvis : Visible q)
    (hno : ∀ m, ¬ root.At q m) :
    Os.view w'.fs (resolve absDir ++ q) = none ↔ Os.view w.fs (resolve absDir ++ q) = none ∨
      (∃ n, here.At q n ∧ Diff.Compared here root q) ∧ Childless w.fs (resolve absDir ++ q) := by
  obtain ⟨w₁, hg, -, hrun⟩ := h.applied
  have hq : q ≠ [] := by
    rintro rfl
    exact hno root (.here root)
  -- Before the removals nothing has changed at the place or below it.
  have hspared (r : List Bytes) := (spared_fetchAndWrite answer w₁
    (Diff.diffNode ord [] here root []) habs hroot hq hvis hno r).trans
      (hg.outside (not_store_below habs hq hvis r))
  have hsame := hspared []
  rw [List.append_nil] at hsame
  have hbelow : Childless ((fetchAndWrite absDir (storeOf absDir) root
      (Diff.diffNode ord [] here root [])).run (handle answer) w₁).2.fs (resolve absDir ++ q) ↔
      Childless w.fs (resolve absDir ++ q) :=
    forall_congr' fun c => by rw [List.append_assoc, hspared]
  have hmem : resolve absDir ++ q ∈
      (Diff.diffNode ord [] here root []).deleted.map (deletedPlace absDir) ↔
        ∃ n, here.At q n ∧ Diff.Compared here root q := by
    rw [mem_deletedPlaces habs hhere hroot.distinct]
    constructor
    · rintro ⟨q', n, heq, hn, -, hcomp⟩
      rw [List.append_cancel_left heq]
      exact ⟨n, hn, hcomp⟩
    · rintro ⟨n, hn, hcomp⟩
      exact ⟨q, n, rfl, hn, hno, hcomp⟩
  rw [applyDiff_deletes hrun, Os.view_foldl_tryRemove
    (antichain_deletedPlaces habs hhere hroot.distinct), hsame, hbelow, hmem]

/-- A local place that the other side lacks, in a directory that it has, is listed as deleted. -/
theorem Faithful.compared (h : Faithful here root) {q : List Bytes} {n : ManifestNode}
    (hn : here.At q n) (hno : ∀ m, ¬ root.At q m)
    (habove : ∀ t, t <+: q → t ≠ q → ∃ m, root.At t m) : Diff.Compared here root q := by
  intro t ht hne
  obtain ⟨b, hb⟩ := habove t ht hne
  obtain ⟨a, s, ha, rfl, hs⟩ := hn.above ht
  refine ⟨a, b, ha, hb, fun heq => ?_⟩
  obtain ⟨m, hm⟩ := ((h ha hb heq).1 s).1 ⟨n, hs⟩
  exact hno m (ManifestNode.at_append.2 ⟨b, hb, hm⟩)

/-- Nothing stands below a place where nothing is. -/
theorem childless_of_view_none {fs : Os.Fs} {p : List Bytes} (h : Os.view fs p = none) :
    Childless fs p := by
  intro c
  by_contra hc
  obtain ⟨m, hm⟩ := Os.view_dir_above (List.prefix_append p [c]) (by simp) hc
  rw [h] at hm
  cases hm

/-- **What the peer lacks is gone** just when no directory that it lacks had something in it. -/
theorem Course.gone_iff_bare (h : Course answer ord absDir here root w w' k) (habs : isAbs absDir)
    (hwf : w.fs.WF) {m : UInt32} {es : List (Bytes × Os.Entry)}
    (hreach : Os.reach w.fs (resolve absDir) = some (.dir m es))
    (hhere : here = convertTreeToManifest (buildNode (base absDir) (.dir m es))) (he : e.WF)
    (hroot : root = convertTreeToManifest (buildNode name e)) (hfaithful : Faithful here root) :
    (∀ q, Visible q → Os.view (some e) q = none → Os.view w'.fs (resolve absDir ++ q) = none) ↔
      StrangersBare absDir w.fs e := by
  have hdir := Os.wf_reach hwf _ _ hreach
  have hlocal : here.Orderly := hhere ▸ orderly_buildNode hdir _
  have horderly : root.Orderly := hroot ▸ orderly_buildNode he _
  have hat {q : List Bytes} (hq : Visible q) :
      (∃ n, here.At q n) ↔ Os.view w.fs (resolve absDir ++ q) ≠ none := by
    rw [hhere, exists_at_iff hdir hq, view_of_reach hreach]
  have hno {q : List Bytes} (hq : Visible q) (hnone : Os.view (some e) q = none) :
      ∀ n, ¬ root.At q n := by
    intro n hn
    exact (exists_at_iff he hq).1 ⟨n, hroot ▸ hn⟩ hnone
  constructor
  · intro hgone q hq hnone
    rcases (h.gone_iff habs hlocal horderly hq (hno hq hnone)).1 (hgone q hq hnone) with
      habsent | ⟨-, hbare⟩
    · exact childless_of_view_none habsent
    · exact hbare
  · intro hbare q hq hnone
    rw [h.gone_iff habs hlocal horderly hq (hno hq hnone), or_iff_not_imp_left]
    intro hthere
    obtain ⟨n, hn⟩ := (hat hq).2 hthere
    refine ⟨⟨n, hn, hfaithful.compared hn (hno hq hnone) fun t ht hne => ?_⟩, hbare q hq hnone⟩
    -- Otherwise the place `t` would be one that the peer lacks, with something in it.
    have ht' : Visible t := fun c hc => hq c (ht.subset hc)
    rw [hroot]
    refine (exists_at_iff he ht').2 fun hlacks => ?_
    obtain ⟨s, rfl⟩ := ht
    cases s with
    | nil => simp at hne
    | cons c s =>
      have hc : Os.reach w.fs (resolve absDir ++ t ++ [c]) = none :=
        Option.map_eq_none_iff.1 (hbare t ht' hlacks c)
      have hplace : resolve absDir ++ (t ++ c :: s) = resolve absDir ++ t ++ [c] ++ s := by simp
      rw [hplace, Os.view, Os.reach_append, hc, Os.reach_none] at hthere
      exact hthere rfl

theorem Course.sound (h : Course answer ord absDir here root w w' k)
    (hsound : (storeOf absDir).Sound w.fs) : (storeOf absDir).Sound w'.fs := by
  obtain ⟨w₁, w₂, hg, -, -, -, hsite⟩ := h.written
  exact fun hash c hc => hg.sound hsound hash c (hsite.blob hash ▸ hc)

theorem Course.blob (h : Course answer ord absDir here root w w' k) {hash c : Bytes}
    (hc : (storeOf absDir).blob w.fs hash = some c) :
    (storeOf absDir).blob w'.fs hash = some c := by
  obtain ⟨w₁, w₂, hg, -, -, -, hsite⟩ := h.written
  exact (hsite.blob hash).trans (hg.blob hc)

/-- **When a completed sync mirrors the peer**: if the peer's empty files were there, and none of
the directories that it lacks had something in it. -/
theorem Course.mirrors_iff (h : Course answer ord absDir here root w w' k) (habs : isAbs absDir)
    (hwf : w.fs.WF) (hsound : (storeOf absDir).Sound w.fs) {m : UInt32}
    {es : List (Bytes × Os.Entry)}
    (hreach : Os.reach w.fs (resolve absDir) = some (.dir m es))
    (hhere : here = convertTreeToManifest (buildNode (base absDir) (.dir m es)))
    (hadvertised : Advertised root) (he : e.WF)
    (hroot : root = convertTreeToManifest (buildNode name e)) (hfaithful : Faithful here root)
    (hno : ¬ Collides (storeOf absDir) w'.fs e) :
    Mirrors absDir w'.fs e ↔
      EmptyFilesThere absDir w.fs e ∧ StrangersBare absDir w.fs e := by
  have hbuilt := h.built habs (hhere ▸ orderly_buildNode (Os.wf_reach hwf _ _ hreach) _) hadvertised
  rw [← h.gone_iff_bare habs hwf hreach hhere he hroot hfaithful]
  constructor
  · intro hm
    refine ⟨fun q hq hempty => ?_, fun q hq hlacks => ?_⟩
    · refine (hbuilt.mirrors_at he hroot hno (h.sound hsound) hq ?_).1 (hm q hq) hempty
      obtain ⟨m', hm'⟩ := Os.content_eq_some.1 hempty
      simp [hm']
    · have := hm q hq
      rwa [hlacks, Option.map_none, Option.map_eq_none_iff] at this
  · rintro ⟨hempty, hgone⟩ q hq
    by_cases hthere : Os.view (some e) q = none
    · rw [hthere, hgone q hq hthere]
    · exact (hbuilt.mirrors_at he hroot hno (h.sound hsound) hq hthere).2 (hempty q hq)

end Course

/-! ### A sync with the daemon -/

/-- Manifests in which equal hashes stand for the same chunks. -/
theorem Faithful.sameChunks {l r : ManifestNode} (h : Faithful l r) : SameChunks l r :=
  fun ha hb heq => (h ha hb heq).2

section Daemon

variable {ν μ : Type} {d : Daemon} {nobody : Request → μ → Exchange × μ}
  {answer : Request → ν → Exchange × ν} {world : ν → World μ} {absDir : Bytes} {w : World ν}

/-- A sync with a provider completes, if nothing is in the way of the provider's files. -/
theorem exists_course {data : ν → Bytes → Option Bytes} {good : ν → Prop} (ord : Diff.DiffOrder)
    {peer : Net.Peer} (hpeer : ∀ root ∈ peer.merkleRoot, 8 ≤ Allocator.cap root.length)
    (hprov : Provider answer data good) (hgood : good w.net) {root : ManifestNode}
    (hserved : servedRoot answer w.net = some root) (hhome : Home absDir w.fs) {ours : Os.Entry}
    (hours : Os.reach w.fs (resolve absDir) = some ours) (hroom : Room absDir root w.fs)
    (hsame : SameChunks (manifestOf absDir ours) root) :
    ∃ n w' m es, (syncCmd ord (.ok peer) absDir).run (handle answer) w = (.ok (.complete n), w') ∧
      ours = .dir m es ∧ Course answer ord absDir (manifestOf absDir ours) root w w' n ∧
      w'.fs.WF ∧ Advertised root := by
  obtain ⟨m, hm⟩ := isDir_of_ready hhome.abs hhome.tidy.ready
  obtain ⟨es, hes⟩ := Os.stat_of_view_dir hm
  obtain rfl := Option.some.inj (hours.symm.trans (Os.stat_ok.1 hes))
  obtain ⟨root', hreply, hadvertised, -⟩ := hprov.manifest hgood
  obtain rfl : root' = root := by simpa [servedRoot, hreply] using hserved
  obtain ⟨⟨n, hr, hcourse⟩, hwf⟩ := Prog.wp_run (h := handle answer)
    (wp_wf (wp_sync ord hpeer hprov hgood hhome hserved hroom hours rfl hsame) hhome.wf)
  exact ⟨n, _, m, es, Prod.ext hr rfl, rfl, hcourse, hwf, hadvertised⟩

/-- The manifest of the daemon's directory. -/
theorem Daemon.Behind.servedRoot_eq (h : d.Behind nobody answer world)
    (hstore : d.store = storeOf d.absDir) {n : ν} {theirs : Os.Entry}
    (htheirs : Os.reach (world (answer .manifest n).2).fs (resolve d.absDir) = some theirs) :
    servedRoot answer n = some (manifestOf d.absDir theirs) := by
  obtain ⟨-, m, es, -, -, hreach, hreply, -⟩ := h.reply hstore n
  obtain rfl := Option.some.inj (htheirs.symm.trans hreach)
  rw [servedRoot, hreply]

end Daemon

/-- The nodes of the manifest of a directory with one file. -/
theorem at_oneFileHome {absDir file content : Bytes} (hfile : Plain file)
    (hshown : Merkle.hidden file = false) {q : List Bytes} {n : ManifestNode}
    (h : (manifestOf absDir (oneFileHome file content)).At q n) :
    q = [] ∧ n = manifestOf absDir (oneFileHome file content) ∨
      q = [file] ∧ n = convertTreeToManifest (buildNode file (.file 0o644 content)) := by
  obtain ⟨hq, x, hx, rfl⟩ := (at_buildNode_iff (wf_oneFileHome hfile hshown content)).1 h
  cases q with
  | nil => exact Or.inl ⟨rfl, by rw [← Option.some.inj hx]; rfl⟩
  | cons c q =>
    have hc : c ≠ [46, 115, 116, 111, 114, 97, 103, 101] := by
      rintro rfl
      exact absurd (hq _ List.mem_cons_self) (by decide)
    rw [oneFileHome, Os.reach] at hx
    by_cases hcf : c = file
    · subst hcf
      rw [List.lookup_cons_self] at hx
      cases q with
      | nil => exact Or.inr ⟨rfl, by rw [← Option.some.inj hx]; rfl⟩
      | cons => cases hx
    · rw [List.lookup_cons, beq_false_of_ne hcf, List.lookup_cons, beq_false_of_ne hc] at hx
      simp at hx

/-- The directory `/d` with the file `b`, and the daemon of `/h` as its peer. -/
def guestWorld : World {w : World Unit // Home hostDaemon.absDir w.fs} where
  fs := some (.dir 0o755 [([100], oneFileHome [98] [1, 2])])
  umask := 0o022
  net := ⟨hostWorld, home_hostWorld⟩

theorem home_guestWorld : Home [47, 100] guestWorld.fs :=
  home_of_empty (by decide) (by decide)
    (Os.wf_some.2 (wf_oneHome (by decide) (by decide) (by decide) _)) rfl

theorem faithful_oneFileHome :
    Faithful (manifestOf [47, 100] (oneFileHome [98] [1, 2]))
      (manifestOf [47, 104] (oneFileHome [97] [7])) := by
  intro q q' a b ha hb heq
  rcases at_oneFileHome (by decide) (by decide) ha with ⟨-, rfl⟩ | ⟨-, rfl⟩ <;>
    rcases at_oneFileHome (by decide) (by decide) hb with ⟨-, rfl⟩ | ⟨-, rfl⟩ <;>
      exact absurd heq (by decide +kernel)

theorem room_guestWorld : Room [47, 100] (manifestOf [47, 104] (oneFileHome [97] [7]))
    guestWorld.fs := by
  constructor
  · intro s n hn hdir m c
    rcases at_oneFileHome (by decide) (by decide) hn with ⟨rfl, -⟩ | ⟨-, rfl⟩
    · have hview : Os.view guestWorld.fs (resolve [47, 100] ++ []) = some (.dir 0o755) := by decide
      rw [hview]
      simp
    · cases hdir
  · intro s n hn hfile _ m
    rcases at_oneFileHome (by decide) (by decide) hn with ⟨-, rfl⟩ | ⟨rfl, -⟩
    · cases hfile
    · have hview : Os.view guestWorld.fs (resolve [47, 100] ++ [[97]]) = none := by decide
      rw [hview]
      simp

/-- The manifest that the daemon of `/h` sends. -/
theorem reach_after_manifest : ∃ m es,
    Os.reach (hostDaemon.answer rfl noPeer .manifest guestWorld.net).2.1.fs (resolve [47, 104]) =
        some (.dir m es) ∧
      manifestOf [47, 104] (.dir m es) = manifestOf [47, 104] (oneFileHome [97] [7]) := by
  obtain ⟨fs', m, es, hw', hhome', hgrown, hreach, -⟩ :=
    Prog.wp_run (h := handle noPeer) (wp_onManifestRequest (d := hostDaemon) rfl home_hostWorld)
  refine ⟨m, es, ?_, ?_⟩
  · exact (congrArg (fun w : World Unit => Os.reach w.fs (resolve [47, 104])) hw').trans hreach
  · exact congrArg convertTreeToManifest (manifest_of_grown (by decide) hgrown home_hostWorld.wf
      hhome'.wf rfl hreach (base [47, 104]))

end FileSync.Cli
