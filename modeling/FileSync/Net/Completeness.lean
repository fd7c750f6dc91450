import FileSync.Net.SyncManager
import FileSync.Merkle.DiffExact

/-!
# Net — what a sync brings

Two sync managers, one of which syncs with the other.  `Serves` says that a peer answers with
`HandleManifestRequest` and `HandleChunkRequest`, as far as its answers arrive.

A sync asks for the chunks of the files that only the peer has.  Of a file that both have but
differently, `findDifferingChunks` returns the chunks of ours, and of a path that is a file on one
side and a directory on the other nothing is returned; so the chunks of the peer's version are not
asked for.

* `mem_chunksToFetch_iff`: of the chunks that our tree does not have, just those of files that only
  the peer has are asked for.
* `complete_iff_remoteOnly`: after a sync that returned no error, every chunk of the peer's tree is
  in the store just when each of them was there before, or is a chunk of a file that only the peer
  has and the root hash of the peer's handshake did not end the sync.

The root hash of the handshake is the one that the peer had when it connected.  `UpdateMerkleRoot`
tells nobody, so it may be our own while the tree that the peer serves is another.
-/

open Sha256 Filepath

namespace FileSync.Net

open Merkle (Node NodeType Tree DiffOrder DiffResult rootOf subOf DirsAbove Expected HashFaithful)
open Cas (BlobStore)
open Proto (ManifestNode ManifestResponse ChunkResponse Request Exchange Stage)

/-- `hash` is a chunk of a file of the tree. -/
def Carries (root : Option Node) (hash : Bytes) : Prop :=
  ∃ p n, subOf root p = some n ∧ hash ∈ n.fileChunks

/-- `hash` is a chunk of a file that only the remote tree has: nothing local is at its path, and
where both have a node above it both have a directory. -/
def RemoteOnly (l r : Option Node) (hash : Bytes) : Prop :=
  ∃ p n, subOf r p = some n ∧ hash ∈ n.fileChunks ∧ subOf l p = none ∧ DirsAbove l r p

/-! ### What is asked for -/

/-- An entry with a local node carries chunks of the local file only. -/
theorem mem_fileChunks_of_entryFor {path : Bytes} {a : Node} {o : Option Node} {x : DiffResult}
    (h : Merkle.entryFor path (some a) o = some x) {hash : Bytes} (hmem : hash ∈ x.chunks) :
    hash ∈ a.fileChunks := by
  cases o with
  | none =>
    obtain rfl := Option.some.inj h
    exact hmem
  | some b =>
    rw [Merkle.entryFor] at h
    split_ifs at h with _ hfile
    · obtain rfl := Option.some.inj h
      simp at hmem
    · obtain rfl := Option.some.inj h
      rw [Node.fileChunks, hfile.1]
      exact (List.mem_filter.1 hmem).1

theorem mem_chunksToFetch {diffs : List DiffResult} {hash : Bytes} :
    hash ∈ chunksToFetch diffs ↔
      ∃ x ∈ diffs, (x.type = .deleted ∨ x.type = .modified) ∧ hash ∈ x.chunks := by
  simp [chunksToFetch, and_assoc]

/-- Of the chunks that the local tree does not have, those of files only the remote has are asked
for and no other. -/
theorem mem_chunksToFetch_iff (ord : DiffOrder) (here remote : Option Tree)
    (hl : ∀ a ∈ rootOf here, a.Distinct) (hr : ∀ b ∈ rootOf remote, b.Distinct)
    (hf : HashFaithful (rootOf here) (rootOf remote)) {hash : Bytes}
    (hash_new : ¬ Carries (rootOf here) hash) :
    hash ∈ chunksToFetch (Merkle.diff ord here remote) ↔
      RemoteOnly (rootOf here) (rootOf remote) hash := by
  have henum := Merkle.enumerates_diff ord here remote hl hr hf
  rw [mem_chunksToFetch]
  constructor
  · rintro ⟨x, hx, hty, hmem⟩
    obtain ⟨p, habove, hentry⟩ := henum.mem_iff.1 hx
    cases hlp : subOf (rootOf here) p with
    | none =>
      cases hrp : subOf (rootOf remote) p with
      | none => simp [hlp, hrp, Merkle.entryFor] at hentry
      | some b =>
        rw [hlp, hrp] at hentry
        obtain rfl := Option.some.inj hentry
        exact ⟨p, b, hrp, hmem, hlp, habove⟩
    | some a =>
      rw [hlp] at hentry
      exact (hash_new ⟨p, a, hlp, mem_fileChunks_of_entryFor hentry hmem⟩).elim
  · rintro ⟨p, b, hrp, hmem, hlp, habove⟩
    have hentry := congrArg₂ (Merkle.entryFor
      (Merkle.pathTo [] (Merkle.rootName (rootOf here) (rootOf remote) :: p))) hlp hrp
    exact ⟨_, henum.mem_iff.2 ⟨p, habove, hentry⟩, Or.inl rfl, hmem⟩

/-! ### The peer -/

/-- The peer answers with the handlers of `remote`, whose file system is `fs`, as far as its answers
arrive. -/
structure Serves {ν : Type} (remote : SyncManager) (fs : Os.Fs)
    (answer : Request → ν → Exchange × ν) : Prop where
  manifest : ∀ n env, (answer .manifest n).1 = .ok env →
    env.type = .manifestResponse ∧ env.asManifest = .ok remote.handleManifestRequest
  chunks : ∀ hashes n env, (answer (.chunks hashes) n).1 = .ok env →
    env.type = .chunkResponse ∧ ∃ umask, env.asChunks =
      .ok ((remote.handleChunkRequest hashes).run (handle scripted) ⟨fs, umask, []⟩).1

theorem rootOf_remoteTree (remote : SyncManager) :
    rootOf (some (SyncManager.remoteTree remote.handleManifestRequest)) = rootOf remote.tree := by
  simp [rootOf, SyncManager.remoteTree, SyncManager.handleManifestRequest, Option.map_map,
    Function.comp_def, manifestToNode_nodeToManifest]

/-- `HandleChunkRequest` returns the chunks that the store has. -/
theorem collectChunks_spec {ν : Type} (answer : Request → ν → Exchange × ν) {store : BlobStore}
    (hs : isAbs store.baseDir) (w : World ν) (hashes : List Bytes) (resp : ChunkResponse) :
    Prog.wp (handle answer) (fun _ => True) (SyncManager.collectChunks store hashes resp)
      (fun out _ => ∀ hash, hash ∈ out.chunks.map (·.hash) ↔
        hash ∈ resp.chunks.map (·.hash) ∨ (hash ∈ hashes ∧ store.blob w.fs hash ≠ none)) w := by
  induction hashes generalizing resp with
  | nil => simp [SyncManager.collectChunks]
  | cons h hashes ih =>
    refine Prog.wp_bind.2 (BlobStore.wp_get hs trivial (fun c hc => ?_) fun hnone e => ?_)
    · refine Prog.wp_mono (ih _) fun out _ hout hash => ?_
      rw [hout]
      by_cases hh : hash = h
      · simp [hh, hc]
      · simp [hh]
    · refine Prog.wp_mono (ih _) fun out _ hout hash => ?_
      rw [hout]
      by_cases hh : hash = h
      · simp [hh, hnone]
      · simp [hh]

section Peer

variable {ν : Type} {answer : Request → ν → Exchange × ν} {remote : SyncManager} {fs : Os.Fs}

theorem Serves.manifestReply (h : Serves remote fs answer) {n : ν} :
    (∃ e, Net.manifestReply (answer .manifest n).1 = .error e) ∨
      Net.manifestReply (answer .manifest n).1 = .ok (some remote.handleManifestRequest) := by
  cases hr : (answer .manifest n).1 with
  | error e => exact Or.inl ⟨e.2, rfl⟩
  | ok env =>
    obtain ⟨hty, hman⟩ := h.manifest n env hr
    right
    simp [Net.manifestReply, hty, hman, Except.map]

/-- A response that arrives is the one that `HandleChunkRequest` made. -/
theorem Serves.chunkReply_eq (h : Serves remote fs answer) {hashes : List Bytes} {n : ν}
    {resp : ChunkResponse} (hr : Net.chunkReply (answer (.chunks hashes) n).1 = .ok resp) :
    ∃ umask, resp =
      ((remote.handleChunkRequest hashes).run (handle scripted) ⟨fs, umask, []⟩).1 := by
  cases hx : (answer (.chunks hashes) n).1 with
  | error e =>
    obtain ⟨_ | _ | _, _⟩ := e <;> simp [hx, Net.chunkReply] at hr
  | ok env =>
    obtain ⟨hty, umask, hchunks⟩ := h.chunks hashes n env hx
    simp only [hx, Net.chunkReply, hty, hchunks, Except.mapError] at hr
    exact ⟨umask, (Except.ok.inj hr).symm⟩

theorem Serves.chunkReply (h : Serves remote fs answer) (hs : isAbs remote.store.baseDir)
    {hashes : List Bytes} {n : ν} {resp : ChunkResponse}
    (hr : Net.chunkReply (answer (.chunks hashes) n).1 = .ok resp) (hash : Bytes) :
    hash ∈ resp.chunks.map (·.hash) ↔ hash ∈ hashes ∧ remote.store.blob fs hash ≠ none := by
  obtain ⟨umask, rfl⟩ := h.chunkReply_eq hr
  simpa [SyncManager.handleChunkRequest] using Prog.wp_run
    (collectChunks_spec scripted hs ⟨fs, umask, []⟩ hashes ⟨[], []⟩) hash

/-- If no answer is lost, the chunks asked for that the peer has arrive. -/
theorem Serves.replies (h : Serves remote fs answer) (hs : isAbs remote.store.baseDir)
    (batches : List (List Bytes)) (n : ν) (hok : (Net.replies answer batches n).2 = none)
    (hash : Bytes) : hash ∈ (Net.replies answer batches n).1.map (·.hash) ↔
      hash ∈ batches.flatten ∧ remote.store.blob fs hash ≠ none := by
  induction batches generalizing n with
  | nil => simp [Net.replies]
  | cons batch batches ih =>
    unfold Net.replies at hok ⊢
    cases hr : Net.chunkReply (answer (.chunks batch) n).1 with
    | error e => simp [hr] at hok
    | ok resp =>
      simp only [hr] at hok ⊢
      rw [List.map_append, List.mem_append, h.chunkReply hs hr, ih _ hok, List.flatten_cons,
        List.mem_append, or_and_right]

end Peer

/-! ### Completeness -/

section Complete

variable {ν : Type} {answer : Request → ν → Exchange × ν} {sm remote : SyncManager} {fs : Os.Fs}

/-- What a sync that returned no error put: the chunks it asked for, as far as the peer has them. -/
theorem mem_delivered (hserves : Serves remote fs answer) (hs : isAbs remote.store.baseDir)
    {ord : DiffOrder} {peer : Peer} {n : ν} (hsync : ¬ sm.inSync peer)
    (hok : (sm.delivered answer ord peer n).2 = none) (hash : Bytes) :
    hash ∈ (sm.delivered answer ord peer n).1.map (·.hash) ↔
      hash ∈ chunksToFetch (Merkle.diff ord sm.tree
        (some (SyncManager.remoteTree remote.handleManifestRequest))) ∧
      remote.store.blob fs hash ≠ none := by
  unfold SyncManager.delivered at hok ⊢
  rw [if_neg hsync] at hok ⊢
  rcases hserves.manifestReply (n := n) with ⟨e, he⟩ | hm
  · simp [he] at hok
  · simp only [hm, Option.map_eq_none_iff] at hok ⊢
    rw [List.map_map, show (·.hash) ∘ casChunk = (·.hash) from rfl, hserves.replies hs _ _ hok,
      Blocks.flatten_blocks (by decide)]

/-- **Completeness of `SyncWithPeer`.**  For every peer that serves its tree and has its chunks,
whatever root hash it gave in the handshake: after a sync that returned no error, every chunk of the
peer's files is in the store just when each of them was there before, or is a chunk of a file that
only the peer has and the two were not taken to be in sync. -/
theorem complete_iff_remoteOnly (ord : DiffOrder) (peer : Peer) (w : World ν)
    (hserves : Serves remote fs answer) (hs : isAbs sm.store.baseDir)
    (hs' : isAbs remote.store.baseDir) (hbase : sm.store.Holds w.fs [])
    (hl : ∀ a ∈ rootOf sm.tree, a.Distinct) (hr : ∀ b ∈ rootOf remote.tree, b.Distinct)
    (hf : HashFaithful (rootOf sm.tree) (rootOf remote.tree))
    (hdigest : ∀ hash, Carries (rootOf remote.tree) hash → 2 ≤ hash.length)
    (hhere : ∀ hash, Carries (rootOf sm.tree) hash → sm.store.Holds w.fs hash)
    (hthere : ∀ hash, Carries (rootOf remote.tree) hash → remote.store.blob fs hash ≠ none)
    (hok : failure ((sm.syncWithPeer ord peer).run (handle answer) w).1 = none) :
    (∀ hash, Carries (rootOf remote.tree) hash →
        sm.store.Holds ((sm.syncWithPeer ord peer).run (handle answer) w).2.fs hash) ↔
      ∀ hash, Carries (rootOf remote.tree) hash →
        sm.store.Holds w.fs hash ∨
          ¬ sm.inSync peer ∧ RemoteOnly (rootOf sm.tree) (rootOf remote.tree) hash := by
  have hspec := Prog.wp_run (syncWithPeer_spec answer ord sm peer hs hbase)
  rw [hok] at hspec
  obtain ⟨hst, hdone⟩ := hspec.resolve_right (by simp)
  refine forall₂_congr fun hash hcarries => ?_
  rw [hst.holds_iff hs]
  refine or_congr_right' fun hnew => ?_
  have hnew' : ¬ Carries (rootOf sm.tree) hash := fun h => hnew (hhere hash h)
  by_cases hsync : sm.inSync peer
  · refine iff_of_false ?_ fun h => h.1 hsync
    rintro ⟨c, hc, -⟩
    rw [SyncManager.delivered, if_pos hsync] at hc
    cases hc
  rw [and_iff_right hsync]
  rw [← rootOf_remoteTree remote] at hr hf
  rw [← rootOf_remoteTree remote, ← mem_chunksToFetch_iff ord sm.tree _ hl hr hf hnew',
    ← and_iff_left (a := hash ∈ _) (hthere hash hcarries),
    ← mem_delivered hserves hs' hsync hdone.symm, List.mem_map]
  constructor
  · rintro ⟨c, hc, hpre⟩
    exact ⟨c, hc, (sm.store.eq_of_place_below (hdigest hash hcarries) hpre).symm⟩
  · rintro ⟨c, hc, rfl⟩
    exact ⟨c, hc, List.prefix_refl _⟩

end Complete

/-! ### Two peers with one file -/

/-- The peer whose answers all arrive. -/
def serve (remote : SyncManager) (fs : Os.Fs) : Request → Unit → Exchange × Unit
  | .manifest, n =>
    (.ok ⟨.manifestResponse, .ok remote.handleManifestRequest, .error .eof⟩, n)
  | .chunks hashes, n =>
    (.ok ⟨.chunkResponse, .error .eof,
      .ok ((remote.handleChunkRequest hashes).run (handle scripted) ⟨fs, 0o022, []⟩).1⟩, n)

theorem serves_serve (remote : SyncManager) (fs : Os.Fs) : Serves remote fs (serve remote fs) where
  manifest := by
    rintro n _ ⟨⟩
    exact ⟨rfl, rfl⟩
  chunks := by
    rintro hashes n _ ⟨⟩
    exact ⟨rfl, _, rfl⟩

/-- A root `r` with a file `a` of one chunk. -/
def oneFile (data : Bytes) : Node :=
  Merkle.newDirNode [114] 0o755 [Merkle.newFileNode [97] 0o644 [(sum256 data).bytes]]

theorem nodes_oneFile (data : Bytes) : (oneFile data).nodes =
    [oneFile data, Merkle.newFileNode [97] 0o644 [(sum256 data).bytes]] := rfl

theorem distinct_oneFile (data : Bytes) : (oneFile data).Distinct :=
  .node (List.nodup_singleton _) (List.forall_mem_singleton.2 (.node List.nodup_nil nofun))

theorem carries_oneFile {data hash : Bytes} :
    Carries (some (oneFile data)) hash ↔ hash = (sum256 data).bytes := by
  constructor
  · rintro ⟨p, n, hp, hmem⟩
    have hn := Node.mem_nodes_of_sub hp
    rw [nodes_oneFile, List.mem_pair] at hn
    rcases hn with rfl | rfl
    · cases hmem
    · exact List.mem_singleton.1 hmem
  · rintro rfl
    exact ⟨[[97]], _, rfl, List.mem_singleton_self _⟩

/-- A file system with a store in `/s` that keeps one chunk. -/
def storeOf (data : Bytes) : Os.Fs :=
  some (.dir 0o755 [([115], .dir 0o700 [(Hex.encode ((sum256 data).bytes.take 1),
    .dir 0o700 [(Hex.encode ((sum256 data).bytes.drop 1), .file 0o600 data)])])])

def managerOf (data : Bytes) : SyncManager := ⟨⟨[47, 115]⟩, some ⟨some (oneFile data)⟩⟩

theorem keeps_storeOf_two : (managerOf [2]).store.blob (storeOf [2]) (sum256 [2]).bytes ≠ none := by
  decide +kernel

theorem complete_with_new_file :
    Carries (some (oneFile [2])) (sum256 [2]).bytes ∧
      fresh.store.Holds ((fresh.syncWithPeer (.listed _ _) ⟨[], none⟩).run
        (handle (serve (managerOf [2]) (storeOf [2])))
        ⟨some (.dir 0o755 [([115], .dir 0o700 [])]), 0o022, ()⟩).2.fs (sum256 [2]).bytes := by
  have hcarries : Carries (some (oneFile [2])) (sum256 [2]).bytes := carries_oneFile.2 rfl
  have hdigest : ∀ hash, Carries (some (oneFile [2])) hash → 2 ≤ hash.length := fun hash h => by
    rw [carries_oneFile.1 h, (sum256 [2]).length_bytes]
    decide
  refine ⟨hcarries, (complete_iff_remoteOnly _ _ _ (serves_serve (managerOf [2]) (storeOf [2]))
    (by decide) (by decide) (by decide) (by rintro _ ⟨⟩) (by rintro _ ⟨⟩; exact distinct_oneFile _)
    (by rintro p a b ⟨⟩) hdigest (by rintro hash ⟨p, n, ⟨⟩, -⟩)
    (fun hash h => carries_oneFile.1 h ▸ keeps_storeOf_two)
    (by decide +kernel)).2 ?_ _ hcarries⟩
  rintro hash ⟨p, n, hp, hmem⟩
  exact Or.inr ⟨by decide, p, n, hp, hmem, rfl, fun q _ _ a b ha => nomatch ha⟩

/-- Two peers whose file `a` differs: the sync returns no error, and the peer's chunk is not
there. -/
theorem changed_file_not_fetched :
    let l := managerOf [1]
    let r := managerOf [2]
    let out := (l.syncWithPeer (.listed _ _) ⟨[], none⟩).run (handle (serve r (storeOf [2])))
      ⟨storeOf [1], 0o022, ()⟩
    (oneFile [1]).Distinct ∧ (oneFile [2]).Distinct ∧
      HashFaithful (some (oneFile [1])) (some (oneFile [2])) ∧
      (∀ hash, Carries (some (oneFile [1])) hash → l.store.Holds (storeOf [1]) hash) ∧
      (∀ hash, Carries (some (oneFile [2])) hash → r.store.blob (storeOf [2]) hash ≠ none) ∧
      failure out.1 = none ∧
      Carries (some (oneFile [2])) (sum256 [2]).bytes ∧
        ¬ l.store.Holds out.2.fs (sum256 [2]).bytes := by
  intro l r out
  have hhere : l.store.Holds (storeOf [1]) (sum256 [1]).bytes := by decide +kernel
  have hrun : failure out.1 = none ∧ ¬ l.store.Holds out.2.fs (sum256 [2]).bytes := by
    decide +kernel
  exact ⟨distinct_oneFile _, distinct_oneFile _, HashFaithful.of_disjoint (by decide +kernel),
    fun hash h => carries_oneFile.1 h ▸ hhere,
    fun hash h => carries_oneFile.1 h ▸ keeps_storeOf_two, hrun.1, carries_oneFile.2 rfl, hrun.2⟩

end FileSync.Net
