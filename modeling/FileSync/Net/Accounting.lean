import FileSync.Net.Completeness

/-!
# Net — the accounts of a sync

A sync that returned no error has asked an honest peer for the chunks it needs, in batches of 16,
and counts what came and what the peer did not have (`internal/net/sync.go`).  `logged` is a peer
that keeps the requests it was sent.

* `collectChunks_length`: a response accounts for every hash of its request.
* `fetchBatches_accounts`: what the loop over the batches adds to the counts and to the log.
* `sync_accounts`: the counts of a sync add up, each needed hash was requested as often as it is
  needed, and what the peer has of them is in the store.
-/

open Sha256 Filepath

namespace FileSync.Net

open Merkle (DiffOrder)
open Cas (BlobStore)
open Proto (ChunkResponse Request Exchange)

variable {ν : Type}

/-- A peer that keeps the requests it is sent. -/
def logged (answer : Request → ν → Exchange × ν) :
    Request → ν × List Request → Exchange × (ν × List Request)
  | req, (n, log) => ((answer req n).1, ((answer req n).2, log ++ [req]))

/-- The hashes that chunks were requested for, in order. -/
def requestedHashes (log : List Request) : List Bytes :=
  log.flatMap fun
    | .manifest => []
    | .chunks hashes => hashes

theorem requestedHashes_chunks (batches : List (List Bytes)) :
    requestedHashes (batches.map .chunks) = batches.flatten := by
  induction batches with
  | nil => rfl
  | cons batch batches ih => rw [List.map_cons, List.flatten_cons, ← ih]; rfl

section Accounts

variable {answer : Request → ν → Exchange × ν} {remote : SyncManager} {fs : Os.Fs}
  {store : BlobStore}

theorem Serves.logged (h : Serves remote fs answer) : Serves remote fs (logged answer) :=
  ⟨fun n => h.manifest n.1, fun hashes n => h.chunks hashes n.1⟩

/-- A response accounts for every hash: it has a chunk, or the hash is not found. -/
theorem collectChunks_length (answer : Request → ν → Exchange × ν) (hashes : List Bytes)
    (resp : ChunkResponse) (w : World ν) :
    Prog.wp (handle answer) (fun _ => True) (SyncManager.collectChunks store hashes resp)
      (fun out _ => out.chunks.length + out.notFound.length =
        resp.chunks.length + resp.notFound.length + hashes.length) w := by
  induction hashes generalizing resp w with
  | nil => simp [SyncManager.collectChunks]
  | cons hash hashes ih =>
    refine Prog.wp_bind.2 (Prog.wp_mono Prog.wp_true fun r w' _ => ?_)
    rcases r with e | chunk
    · refine Prog.wp_mono (ih _ w') fun out _ hout => ?_
      simp only [List.length_append, List.length_cons, List.length_nil] at hout ⊢
      omega
    · refine Prog.wp_mono (ih _ w') fun out _ hout => ?_
      simp only [List.length_append, List.length_cons, List.length_nil] at hout ⊢
      omega

theorem Serves.chunkReply_length (h : Serves remote fs answer) {hashes : List Bytes} {n : ν}
    {resp : ChunkResponse} (hr : Net.chunkReply (answer (.chunks hashes) n).1 = .ok resp) :
    resp.chunks.length + resp.notFound.length = hashes.length := by
  obtain ⟨umask, rfl⟩ := h.chunkReply_eq hr
  simpa [SyncManager.handleChunkRequest] using
    Prog.wp_run (collectChunks_length scripted hashes ⟨[], []⟩ ⟨fs, umask, []⟩)

/-- What one response adds to the counts. -/
theorem storeChunks_accounts (cs : List Proto.Chunk) (result : SyncResult) (w : World ν) :
    Prog.wp (handle answer) (fun _ => True) (storeChunks store cs result) (fun out _ =>
      out.2 = none → out.1.chunksFetched = result.chunksFetched + cs.length ∧
        out.1.chunksNotFound = result.chunksNotFound ∧
        out.1.chunksNeeded = result.chunksNeeded ∧
        out.1.alreadyInSync = result.alreadyInSync) w := by
  induction cs generalizing result w with
  | nil => exact fun _ => ⟨rfl, rfl, rfl, rfl⟩
  | cons c cs ih =>
    refine Prog.wp_bind.2 (Prog.wp_mono Prog.wp_true fun r w' _ => ?_)
    rcases r with e | new
    · exact fun h => nomatch h
    · refine Prog.wp_mono (ih _ w') fun out _ hout herr => ?_
      obtain ⟨hfetched, hrest⟩ := hout herr
      refine ⟨?_, hrest⟩
      rw [hfetched, List.length_cons]
      dsimp only
      omega

/-- **What the loop over the batches adds** to the counts and to the log, of an honest peer. -/
theorem fetchBatches_accounts (hserves : Serves remote fs answer) (hs : isAbs store.baseDir)
    (batches : List (List Bytes)) (result : SyncResult) {w : World (ν × List Request)}
    (hbase : store.Holds w.fs []) :
    Prog.wp (handle (logged answer)) (fun _ => True) (fetchBatches store batches result)
      (fun out w' => out.2 = none →
        out.1.chunksFetched + out.1.chunksNotFound =
          result.chunksFetched + result.chunksNotFound + batches.flatten.length ∧
        out.1.chunksNeeded = result.chunksNeeded ∧
        out.1.alreadyInSync = result.alreadyInSync ∧
        w'.net.2 = w.net.2 ++ batches.map .chunks) w := by
  induction batches generalizing result w with
  | nil => simp [fetchBatches]
  | cons batch batches ih =>
    refine wp_exchange.2 ⟨trivial, ?_⟩
    cases hr : chunkReply (logged answer (.chunks batch) w.net).1 with
    | error e => exact fun h => nomatch h
    | ok resp =>
      have hlen := hserves.logged.chunkReply_length hr
      refine Prog.wp_bind.2 (Prog.wp_mono (Prog.wp_and
        (storeChunks_spec (w := { w with net := _ }) hs resp.chunks result hbase)
        (storeChunks_accounts resp.chunks result _)) ?_)
      rintro ⟨result', err⟩ _ ⟨⟨fs₁, rfl, -, hbase₁⟩, haccounts⟩
      cases err with
      | some e => exact fun h => nomatch h
      | none =>
        obtain ⟨hfetched, hnot, hneeded, hsync⟩ := haccounts rfl
        refine Prog.wp_mono (ih _ hbase₁) fun out w' hout herr => ?_
        obtain ⟨hsum, hneeded', hsync', hlog⟩ := hout herr
        refine ⟨?_, hneeded'.trans hneeded, hsync'.trans hsync, ?_⟩
        · dsimp only at hsum hfetched hnot
          rw [hsum, hfetched, hnot, List.flatten_cons, List.length_append]
          omega
        · rw [hlog, List.map_cons]
          exact List.append_assoc ..

/-- What a sync asks an honest peer for. -/
def SyncManager.needed (sm : SyncManager) (ord : DiffOrder) (remote : SyncManager) : List Bytes :=
  chunksToFetch (Merkle.diff ord sm.tree
    (some (SyncManager.remoteTree remote.handleManifestRequest)))

theorem requestedHashes_append (log log' : List Request) :
    requestedHashes (log ++ log') = requestedHashes log ++ requestedHashes log' :=
  List.flatMap_append

/-- The counts and the requests of a sync. -/
theorem syncWithPeer_accounts (ord : DiffOrder) (sm : SyncManager) (peer : Peer)
    (hserves : Serves remote fs answer) (hs : isAbs sm.store.baseDir)
    {w : World (ν × List Request)} (hbase : sm.store.Holds w.fs []) :
    Prog.wp (handle (logged answer)) (fun _ => True) (sm.syncWithPeer ord peer) (fun out w' =>
      ∀ result, out = .ok (some result, none) → result.alreadyInSync = false →
        result.chunksNeeded = (sm.needed ord remote).length ∧
        result.chunksFetched + result.chunksNotFound = result.chunksNeeded ∧
        requestedHashes w'.net.2 = requestedHashes w.net.2 ++ sm.needed ord remote) w := by
  unfold SyncManager.syncWithPeer
  split
  · rintro result ⟨⟩ hsync
    cases hsync
  · refine wp_exchange.2 ⟨trivial, ?_⟩
    rcases hserves.logged.manifestReply (n := w.net) with ⟨e, he⟩ | hm
    · rw [he]
      exact fun _ hout => nomatch hout
    · rw [hm]
      dsimp only
      rw [← SyncManager.needed]
      split
      · next hnil =>
          rintro result ⟨⟩ -
          refine ⟨rfl, by rw [hnil]; rfl, ?_⟩
          rw [hnil]
          exact requestedHashes_append _ _
      · refine Prog.wp_bind.2 (Prog.wp_mono (fetchBatches_accounts hserves hs _ _ hbase) ?_)
        rintro ⟨result', err⟩ w' haccounts result hout -
        obtain ⟨rfl, rfl⟩ : result' = result ∧ err = none := by simpa using hout
        obtain ⟨hsum, hneeded, -, hlog⟩ := haccounts rfl
        rw [Blocks.flatten_blocks (by decide)] at hsum
        refine ⟨hneeded, ?_, ?_⟩
        · rw [hneeded, hsum]
          exact Nat.zero_add _
        · change w'.net.2 = w.net.2 ++ [.manifest] ++ _ at hlog
          rw [hlog, requestedHashes_append, requestedHashes_append, requestedHashes_chunks,
            Blocks.flatten_blocks (by decide)]
          exact congrArg (· ++ _) (List.append_nil _)

/-- **The accounts of a sync.**  For all trees and stores, with a peer that answers with
`HandleManifestRequest` and `HandleChunkRequest`: if a sync returned no error and did not find the
two in sync, what was fetched and what was not found are what was needed; each needed hash was
requested as often as it is needed, and no other; and each that the peer has is in the store. -/
theorem sync_accounts (ord : DiffOrder) {sm : SyncManager} (peer : Peer)
    (hserves : Serves remote fs answer) (hs : isAbs sm.store.baseDir)
    (hs' : isAbs remote.store.baseDir) {w w' : World (ν × List Request)}
    (hbase : sm.store.Holds w.fs []) (hlog : w.net.2 = []) {result : SyncResult}
    (h : (sm.syncWithPeer ord peer).run (handle (logged answer)) w = (.ok (some result, none), w'))
    (hsync : result.alreadyInSync = false) :
    result.chunksNeeded = (sm.needed ord remote).length ∧
      result.chunksFetched + result.chunksNotFound = result.chunksNeeded ∧
      (∀ hash, (requestedHashes w'.net.2).count hash = (sm.needed ord remote).count hash) ∧
      ∀ hash ∈ sm.needed ord remote,
        sm.store.Holds w'.fs hash ∨ remote.store.blob fs hash = none := by
  have haccounts := Prog.wp_run (syncWithPeer_accounts ord sm peer hserves hs hbase)
  have hstored := Prog.wp_run (syncWithPeer_spec (logged answer) ord sm peer hs hbase)
  rw [h] at haccounts hstored
  obtain ⟨hneeded, hsum, hrequested⟩ := haccounts result rfl hsync
  refine ⟨hneeded, hsum, fun hash => ?_, fun hash hmem => ?_⟩
  · rw [hrequested, hlog]
    rfl
  · obtain ⟨hst, hdone⟩ := hstored.resolve_right fun hcut => hcut.2 rfl
    have hnot : ¬ sm.inSync peer := fun hin => by
      rw [SyncManager.syncWithPeer, if_pos hin] at h
      cases h
      cases hsync
    rw [or_iff_not_imp_right]
    intro hblob
    obtain ⟨c, hc, rfl⟩ := List.mem_map.1
      ((mem_delivered hserves.logged hs' hnot hdone.symm hash).2 ⟨hmem, hblob⟩)
    exact (hst.holds_iff hs _).2 (.inr ⟨c, hc, List.prefix_rfl⟩)

end Accounts

/-- A peer with a file of two chunks, of which its store keeps one. -/
def gapManager : SyncManager :=
  ⟨⟨[47, 115]⟩, some ⟨some (Merkle.newDirNode [114] 0o755
    [Merkle.newFileNode [97] 0o644 [(sum256 [2]).bytes, List.replicate 32 0]])⟩⟩

def gapWorld : World (Unit × List Request) where
  fs := some (.dir 0o755 [([115], .dir 0o700 [])])
  umask := 0o022
  net := ((), [])

/-- One chunk is fetched, one is not found, and both were requested. -/
theorem sync_accounts_gap :
    let out := (fresh.syncWithPeer (.listed _ _) ⟨[], none⟩).run
      (handle (logged (serve gapManager (storeOf [2])))) gapWorld
    let result : SyncResult := ⟨[], false, 2, 2, 1, 1, 1⟩
    out.1 = .ok (some result, none) ∧
      ∀ hash, (requestedHashes out.2.net.2).count hash =
        (fresh.needed (.listed _ _) gapManager).count hash := by
  intro out result
  have hout : out.1 = .ok (some result, none) := by decide +kernel
  exact ⟨hout, (sync_accounts (.listed _ _) ⟨[], none⟩ (serves_serve gapManager (storeOf [2]))
    (by decide) (by decide) (by decide) rfl (Prod.ext hout rfl) rfl).2.2.1⟩

end FileSync.Net
