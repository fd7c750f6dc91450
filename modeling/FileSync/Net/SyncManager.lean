import FileSync.Cas.Kept
import FileSync.Merkle.Diff
import FileSync.Support.Blocks

/-!
# Net — the sync manager

`SyncWithPeer` asks a peer for its manifest, compares the peer's tree with its own, and fetches the
chunks of the differences into its store; `HandleManifestRequest` and `HandleChunkRequest` are the
other side (`internal/net/sync.go`, `internal/net/transport.go`).

* `delivered` are the chunks of the replies that a sync reads, in order.
* `syncWithPeer_spec`: a sync puts the delivered chunks in turn, all of them or up to the first
  `Put` that fails.
* `sound_after_iff_vouched`: the store is still sound after a sync just when each delivered chunk
  that it did not hold has the hash it came with.  The data is not hashed on arrival.
* `answered_iff`: the sync returns, unless the reply to its first request has another type.
-/

open Sha256 Filepath

namespace FileSync.Net

open Merkle (Node NodeType Tree DiffOrder DiffResult)
open Cas (BlobStore)
open Proto (ManifestNode ManifestResponse ChunkResponse Request Exchange Stage)

/-! ### Manifests -/

mutual

/-- `manifestToNode` of a node that is not nil. -/
def manifestToNode : ManifestNode → Node
  | ⟨name, isDir, hash, mode, size, children, chunks⟩ =>
    { name, type := if isDir then .dir else .file, hash, mode, size,
      children := manifestToNodes children, chunks }

def manifestToNodes : List ManifestNode → List Node
  | [] => []
  | c :: cs => manifestToNode c :: manifestToNodes cs

end

mutual

/-- `nodeToManifest` of a node that is not nil. -/
def nodeToManifest : Node → ManifestNode
  | { name, type, hash, mode, size, children := cs, chunks } =>
    { name, isDir := type = .dir, hash, mode, size, children := nodesToManifest cs, chunks }

def nodesToManifest : List Node → List ManifestNode
  | [] => []
  | c :: cs => nodeToManifest c :: nodesToManifest cs

end

mutual

theorem manifestToNode_nodeToManifest : ∀ n : Node, manifestToNode (nodeToManifest n) = n
  | { name, type, hash, mode, size, children := cs, chunks } => by
    rw [nodeToManifest, manifestToNode, manifestToNodes_nodesToManifest cs]
    cases type <;> rfl

theorem manifestToNodes_nodesToManifest :
    ∀ cs : List Node, manifestToNodes (nodesToManifest cs) = cs
  | [] => rfl
  | c :: cs => by
    rw [nodesToManifest, manifestToNodes, manifestToNode_nodeToManifest c,
      manifestToNodes_nodesToManifest cs]

end

theorem manifestToNodes_eq (cs : List ManifestNode) :
    manifestToNodes cs = cs.map manifestToNode := by
  induction cs with
  | nil => rfl
  | cons c cs ih => rw [manifestToNodes, ih, List.map_cons]

theorem nodesToManifest_eq (cs : List Node) : nodesToManifest cs = cs.map nodeToManifest := by
  induction cs with
  | nil => rfl
  | cons c cs ih => rw [nodesToManifest, ih, List.map_cons]

/-! ### The sync -/

/-- `Peer`, as far as a sync reads it: its identity and the root hash of its handshake. -/
structure Peer where
  id : Bytes
  merkleRoot : Option Bytes

/-- `SyncResult`. -/
structure SyncResult where
  peerID : Bytes
  alreadyInSync : Bool := false
  diffs : ℕ := 0
  chunksNeeded : ℕ := 0
  chunksFetched : ℕ := 0
  chunksNotFound : ℕ := 0
  bytesFetched : ℕ := 0
deriving DecidableEq

structure SyncManager where
  store : BlobStore
  tree : Option Tree

/-- A result and an error, either of which may be nil. -/
abbrev Returned := Option SyncResult × Option Err

/-- What `requestManifest` makes of the exchange.  For a reply of another type it returns the `err`
that it has just found to be nil. -/
def manifestReply : Exchange → Except Err (Option ManifestResponse)
  | .error (_, e) => .error e
  | .ok env =>
    if env.type ≠ .manifestResponse then .ok none
    else env.asManifest.map some

def requestManifest : Cmd (Except Err (Option ManifestResponse)) := do
  return manifestReply (← Sys.exchange .manifest)

/-- What `RequestChunks` makes of the exchange. -/
def chunkReply : Exchange → Except Err ChunkResponse
  | .error (.opening, e) => .error (.wrap "opening stream" e)
  | .error (.sending, e) => .error (.wrap "sending request" e)
  | .error (.reading, e) => .error (.wrap "reading response" e)
  | .ok env =>
    if env.type ≠ .chunkResponse then
      .error (.text ("unexpected response type: " ++ toString env.type.number))
    else env.asChunks.mapError (.wrap "decoding response")

def requestChunks (hashes : List Bytes) : Cmd (Except Err ChunkResponse) := do
  return chunkReply (← Sys.exchange (.chunks hashes))

def batchSize : ℕ := 16

/-- The chunks of the entries that are not `Added`. -/
def chunksToFetch (diffs : List DiffResult) : List Bytes :=
  (diffs.filter fun d => d.type = .deleted ∨ d.type = .modified).flatMap (·.chunks)

/-- The chunk as it is put: under the hash that came with it. -/
def casChunk (c : Proto.Chunk) : Cas.Chunk := ⟨c.hash, c.size, c.data⟩

/-- The loop over the chunks of one response. -/
def storeChunks (store : BlobStore) :
    List Proto.Chunk → SyncResult → Cmd (SyncResult × Option Err)
  | [], result => return (result, none)
  | c :: cs, result => do
      match ← store.put (casChunk c) with
      | .error e => return (result, some e)
      | .ok _ =>
        storeChunks store cs { result with
          chunksFetched := result.chunksFetched + 1
          bytesFetched := result.bytesFetched + c.data.length }

/-- The loop over the batches. -/
def fetchBatches (store : BlobStore) :
    List (List Bytes) → SyncResult → Cmd (SyncResult × Option Err)
  | [], result => return (result, none)
  | batch :: batches, result => do
      match ← requestChunks batch with
      | .error e => return (result, some e)
      | .ok resp =>
        match ← storeChunks store resp.chunks result with
        | (result, some e) => return (result, some e)
        | (result, none) =>
          fetchBatches store batches { result with
            chunksNotFound := result.chunksNotFound + resp.notFound.length }

namespace SyncManager

/-- The root of the peer's handshake is the root of our tree. -/
def inSync (sm : SyncManager) (peer : Peer) : Bool :=
  match Merkle.rootOf sm.tree, peer.merkleRoot with
  | some root, some merkleRoot => root.hash = merkleRoot
  | _, _ => false

/-- The tree of a manifest. -/
def remoteTree (manifest : ManifestResponse) : Tree := ⟨manifest.root.map manifestToNode⟩

/-- `SyncWithPeer`; a manifest that is nil is dereferenced. -/
def syncWithPeer (ord : DiffOrder) (sm : SyncManager) (peer : Peer) : Cmd (Go Returned) := do
  let result : SyncResult := { peerID := peer.id }
  if sm.inSync peer then return .ok (some { result with alreadyInSync := true }, none)
  match ← requestManifest with
  | .error e => return .ok (none, some e)
  | .ok none => return .error .panic
  | .ok (some manifest) =>
    let diffs := Merkle.diff ord sm.tree (some (remoteTree manifest))
    let chunks := chunksToFetch diffs
    let result := { result with diffs := diffs.length, chunksNeeded := chunks.length }
    if chunks = [] then return .ok (some result, none)
    let (result, err) ← fetchBatches sm.store (Blocks.blocks batchSize chunks) result
    return .ok (some result, err)

end SyncManager

/-! ### What a sync reads -/

section Delivered

variable {ν : Type} (answer : Request → ν → Exchange × ν)

/-- The chunks of the replies to the batches, up to the first reply that is an error, and that
error. -/
def replies : List (List Bytes) → ν → List Proto.Chunk × Option Err
  | [], _ => ([], none)
  | batch :: batches, n =>
    match chunkReply (answer (.chunks batch) n).1 with
    | .error e => ([], some e)
    | .ok resp =>
      let rest := replies batches (answer (.chunks batch) n).2
      (resp.chunks ++ rest.1, rest.2)

/-- The chunks delivered to a sync by a peer in state `n`, and how the peer fails it, if it does. -/
def SyncManager.delivered (ord : DiffOrder) (sm : SyncManager) (peer : Peer) (n : ν) :
    List Cas.Chunk × Option Fault :=
  if sm.inSync peer then ([], none)
  else
    match manifestReply (answer .manifest n).1 with
    | .error e => ([], some (.err e))
    | .ok none => ([], some .panic)
    | .ok (some manifest) =>
      let diffs := Merkle.diff ord sm.tree (some (remoteTree manifest))
      let got := replies answer (Blocks.blocks batchSize (chunksToFetch diffs))
        (answer .manifest n).2
      (got.1.map casChunk, got.2.map .err)

end Delivered

/-- How a call failed, if it did. -/
def failure : Go Returned → Option Fault
  | .error f => some f
  | .ok (_, some e) => some (.err e)
  | .ok (_, none) => none

/-! ### What a sync does -/

section Spec

variable {ν : Type} {answer : Request → ν → Exchange × ν} {store : BlobStore} {w : World ν}

/-- What a loop that returned `err` has made of the file system, when all puts would be of `chunks`
and the peer fails it with `fault`: all puts are done, or one failed. -/
def Fetched {φ : Type} (store : BlobStore) (chunks : List Cas.Chunk) (fault : Option φ)
    (err : Option φ) (fs fs' : Os.Fs) : Prop :=
  (store.Stored fs chunks fs' ∧ err = fault) ∨ (store.Cut fs chunks fs' ∧ err ≠ none)

theorem storeChunks_spec (hs : isAbs store.baseDir) (cs : List Proto.Chunk) (result : SyncResult)
    (hbase : store.Holds w.fs []) :
    Prog.wp (handle answer) (fun _ => True) (storeChunks store cs result) (fun out w' =>
      ∃ fs', w' = { w with fs := fs' } ∧ Fetched store (cs.map casChunk) none out.2 w.fs fs' ∧
        store.Holds fs' []) w := by
  induction cs generalizing result w with
  | nil => exact ⟨w.fs, rfl, Or.inl ⟨.nil, rfl⟩, hbase⟩
  | cons c cs ih =>
    refine Prog.wp_bind.2 (Prog.wp_mono (BlobStore.put_spec hs hbase fun _ _ => trivial) ?_)
    rintro r _ ⟨fs₁, rfl, heff, hres⟩
    have hbase₁ := heff.holds_mono hs hbase
    cases r with
    | error e => exact ⟨fs₁, rfl, Or.inr ⟨.fails heff hres, by simp⟩, hbase₁⟩
    | ok new =>
      refine Prog.wp_mono (ih _ hbase₁) ?_
      rintro out _ ⟨fs', rfl, ⟨hst, herr⟩ | ⟨hcut, herr⟩, hb⟩
      · exact ⟨fs', rfl, Or.inl ⟨.cons heff hres hst, herr⟩, hb⟩
      · exact ⟨fs', rfl, Or.inr ⟨.after heff hres hcut, herr⟩, hb⟩

theorem fetchBatches_spec (hs : isAbs store.baseDir) (batches : List (List Bytes))
    (result : SyncResult) (hbase : store.Holds w.fs []) :
    Prog.wp (handle answer) (fun _ => True) (fetchBatches store batches result) (fun out w' =>
      Fetched store ((replies answer batches w.net).1.map casChunk) (replies answer batches w.net).2
        out.2 w.fs w'.fs) w := by
  induction batches generalizing result w with
  | nil => exact Or.inl ⟨.nil, rfl⟩
  | cons batch batches ih =>
    refine wp_exchange.2 ⟨trivial, ?_⟩
    unfold replies
    cases chunkReply (answer (.chunks batch) w.net).1 with
    | error e => exact Or.inl ⟨.nil, rfl⟩
    | ok resp =>
      refine Prog.wp_bind.2 (Prog.wp_mono (storeChunks_spec hs resp.chunks result hbase) ?_)
      rintro ⟨result', err⟩ _ ⟨fs₁, rfl, ⟨hst, rfl⟩ | ⟨hcut, herr⟩, hbase₁⟩
      · refine Prog.wp_mono (ih _ hbase₁) ?_
        rintro out w' (⟨hst', herr⟩ | ⟨hcut, herr⟩)
        · exact Or.inl ⟨List.map_append ▸ hst.append hst', herr⟩
        · exact Or.inr ⟨List.map_append ▸ hst.cut hcut, herr⟩
      · cases err with
        | none => exact (herr rfl).elim
        | some e => exact Or.inr ⟨List.map_append ▸ hcut.append _, by simp⟩

variable (answer) in
/-- **What a sync does to the store**: it puts the delivered chunks in turn. -/
theorem syncWithPeer_spec (ord : DiffOrder) (sm : SyncManager) (peer : Peer)
    (hs : isAbs sm.store.baseDir) (hbase : sm.store.Holds w.fs []) :
    Prog.wp (handle answer) (fun _ => True) (sm.syncWithPeer ord peer) (fun out w' =>
      Fetched sm.store (sm.delivered answer ord peer w.net).1 (sm.delivered answer ord peer w.net).2
        (failure out) w.fs w'.fs) w := by
  unfold SyncManager.syncWithPeer SyncManager.delivered
  split
  · exact Or.inl ⟨.nil, rfl⟩
  · refine wp_exchange.2 ⟨trivial, ?_⟩
    rcases manifestReply (answer .manifest w.net).1 with e | _ | manifest
    · exact Or.inl ⟨.nil, rfl⟩
    · exact Or.inl ⟨.nil, rfl⟩
    · dsimp only
      split
      · next hnil =>
          rw [hnil]
          exact Or.inl ⟨.nil, rfl⟩
      · refine Prog.wp_bind.2 (Prog.wp_mono (fetchBatches_spec hs _ _ hbase) ?_)
        rintro ⟨result, err⟩ w' (⟨hst, rfl⟩ | ⟨hcut, herr⟩)
        · refine Or.inl ⟨hst, ?_⟩
          cases (replies answer _ _).2 <;> rfl
        · refine Or.inr ⟨hcut, ?_⟩
          cases err with
          | none => exact (herr rfl).elim
          | some e => simp [failure]

/-- **Integrity of a store under `SyncWithPeer`.**  For every peer: a sound store is still sound
after a sync, whether it returns a result, an error or panics, just when each delivered chunk that
the store did not hold has the hash that it came with. -/
theorem sound_after_iff_vouched (ord : DiffOrder) (sm : SyncManager) (peer : Peer) (w : World ν)
    (hs : isAbs sm.store.baseDir) (hready : sm.store.Ready w.fs) (hsound : sm.store.Sound w.fs) :
    sm.store.Sound ((sm.syncWithPeer ord peer).run (handle answer) w).2.fs ↔
      sm.store.Vouched w.fs (sm.delivered answer ord peer w.net).1 := by
  have hspec := Prog.wp_run (syncWithPeer_spec answer ord sm peer hs hready.base)
  rcases hspec with ⟨hst, -⟩ | ⟨hcut, -⟩
  · exact hst.sound_iff hs hsound
  · exact hcut.sound_iff hs hsound hready

end Spec

/-- A sync manager without a tree, over a store in `/s`. -/
def fresh : SyncManager := ⟨⟨[47, 115]⟩, none⟩

/-- A file system that holds an empty store in `/s`, and a peer that has one file, of one chunk, and
answers the request for it with `data`. -/
def oneChunkWorld (hash data : Bytes) : World (List Exchange) where
  fs := some (.dir 0o755 [([115], .dir 0o700 [])])
  umask := 0o022
  net :=
    [.ok ⟨.manifestResponse, .ok ⟨some ⟨[102], false, [1], 0o644, 1, [], [hash]⟩⟩, .error .eof⟩,
      .ok ⟨.chunkResponse, .error .eof, .ok ⟨[⟨hash, data, 1⟩], []⟩⟩]

theorem ready_and_sound_oneChunkWorld (hash data : Bytes) :
    fresh.store.Ready (oneChunkWorld hash data).fs ∧
      fresh.store.Sound (oneChunkWorld hash data).fs :=
  BlobStore.ready_and_sound_of_empty (m := 0o700) (by decide) rfl

theorem sound_after_honest_chunk :
    fresh.store.Sound ((fresh.syncWithPeer (.listed _ _) ⟨[], none⟩).run (handle scripted)
      (oneChunkWorld (sum256 [1]).bytes [1])).2.fs := by
  obtain ⟨hready, hsound⟩ := ready_and_sound_oneChunkWorld (sum256 [1]).bytes [1]
  refine (sound_after_iff_vouched _ fresh _ _ (by decide) hready hsound).2 ?_
  rintro (_ | ⟨c', before⟩) c after heq - -
  · obtain ⟨rfl, -⟩ := List.cons.inj heq
    rfl
  · have hrest : [] = before ++ c :: after := (List.cons.inj heq).2
    simp at hrest

/-- A chunk whose data has another hash is stored. -/
theorem forged_chunk_stored :
    fresh.store.Ready (oneChunkWorld (List.replicate 32 0) [1]).fs ∧
      fresh.store.Sound (oneChunkWorld (List.replicate 32 0) [1]).fs ∧
      ¬ fresh.store.Sound ((fresh.syncWithPeer (.listed _ _) ⟨[], none⟩).run (handle scripted)
        (oneChunkWorld (List.replicate 32 0) [1])).2.fs := by
  obtain ⟨hready, hsound⟩ := ready_and_sound_oneChunkWorld (List.replicate 32 0) [1]
  refine ⟨hready, hsound, fun hafter => ?_⟩
  have hblob : fresh.store.blob ((fresh.syncWithPeer (.listed _ _) ⟨[], none⟩).run
      (handle scripted) (oneChunkWorld (List.replicate 32 0) [1])).2.fs (List.replicate 32 0) =
        some [1] := by
    decide +kernel
  exact absurd (hafter _ _ hblob) (by decide +kernel)

/-! ### Replies of another type -/

/-- A call returned a result, an error or both. -/
def Answered : Go Returned → Prop
  | .ok (result, err) => result ≠ none ∨ err ≠ none
  | .error _ => False

theorem manifestReply_eq_none {reply : Exchange} :
    manifestReply reply = .ok none ↔ ∃ env, reply = .ok env ∧ env.type ≠ .manifestResponse := by
  rcases reply with ⟨_, e⟩ | env
  · simp [manifestReply]
  · rw [manifestReply]
    by_cases hty : env.type = .manifestResponse
    · cases hman : env.asManifest <;> simp [hty, Except.map]
    · simp [hty]

/-- **When a sync returns.**  For every tree, every peer and every sequence of its replies: the sync
returns a result or an error just when no manifest is asked for, or the exchange for it fails or
brings an envelope of the type of a manifest. -/
theorem answered_iff {ν : Type} (answer : Request → ν → Exchange × ν) (ord : DiffOrder)
    (sm : SyncManager) (peer : Peer) (w : World ν) :
    Answered ((sm.syncWithPeer ord peer).run (handle answer) w).1 ↔
      sm.inSync peer = true ∨
        ∀ env, (answer .manifest w.net).1 = .ok env → env.type = .manifestResponse := by
  unfold SyncManager.syncWithPeer
  by_cases hsync : sm.inSync peer = true
  · simp [hsync, Answered]
  have hnil : (∀ env, (answer .manifest w.net).1 = .ok env → env.type = .manifestResponse) ↔
      manifestReply (answer .manifest w.net).1 ≠ .ok none := by
    rw [Ne, manifestReply_eq_none]
    push Not
    rfl
  rw [if_neg hsync, or_iff_right hsync, hnil]
  have hrun : requestManifest.run (handle answer) w = (manifestReply (answer .manifest w.net).1,
      { w with net := (answer .manifest w.net).2 }) := rfl
  rw [Prog.run_bind, hrun]
  rcases manifestReply (answer .manifest w.net).1 with e | _ | manifest
  · exact iff_of_true (.inr (by simp)) (by simp)
  · exact iff_of_false id (by simp)
  · refine iff_of_true ?_ (by simp)
    dsimp only
    split
    · exact .inl (by simp)
    · rw [Prog.run_bind]
      exact .inl (by simp)

/-- A peer that answers the request for its manifest with an envelope of another type. -/
theorem panics_on_other_type :
    ((fresh.syncWithPeer (.listed _ _) ⟨[], none⟩).run (handle scripted)
      ⟨some (.dir 0o755 [([115], .dir 0o700 [])]), 0o022,
        [.ok ⟨.error, .error .eof, .error .eof⟩]⟩).1 = .error .panic := rfl

namespace SyncManager

/-! ### The other side -/

/-- The loop of `HandleChunkRequest`. -/
def collectChunks (store : BlobStore) : List Bytes → ChunkResponse → Cmd ChunkResponse
  | [], resp => return resp
  | hash :: hashes, resp => do
      match ← store.get hash with
      | .error _ => collectChunks store hashes { resp with notFound := resp.notFound ++ [hash] }
      | .ok chunk =>
        collectChunks store hashes
          { resp with chunks := resp.chunks ++ [⟨chunk.hash, chunk.data, chunk.size⟩] }

def handleChunkRequest (sm : SyncManager) (hashes : List Bytes) : Cmd ChunkResponse :=
  collectChunks sm.store hashes ⟨[], []⟩

def handleManifestRequest (sm : SyncManager) : ManifestResponse :=
  ⟨(Merkle.rootOf sm.tree).map nodeToManifest⟩

end SyncManager

end FileSync.Net
