import FileSync.Cas.Layout
import FileSync.Cli.Coverage

/-!
# Cli — the daemon

`serve` opens the store of a directory, indexes the directory and answers the requests of peers
(`cmd/p2p-file-sync/main.go`).  A manifest is made anew for each request, after the directory has
been indexed again; chunks come from the store.

* `Home absDir fs`: a directory that can be served; `Provider` is what a sync needs of its peer.
* `wp_onManifestRequest`, `wp_onChunkRequest`: what the two callbacks answer and leave behind.
* `daemon_provider`: the daemon is a provider, whatever is done to its files between two requests
  outside its store.
-/

open Sha256 Filepath

namespace FileSync.Cli

open Proto (ManifestNode ManifestResponse ChunkResponse Request Reply Exchange)
open Cas (BlobStore Chunk chunksOf newBlobStore)
open Merkle (Node Tree Visible buildNode buildFromFS)

/-! ### The program -/

mutual

/-- `countNodes` of a node that is not nil. -/
def countNodes : Node → ℕ
  | { children := cs, .. } => 1 + countBelow cs

def countBelow : List Node → ℕ
  | [] => 0
  | c :: cs => countNodes c + countBelow cs

end

/-- `proto.ManifestResponse` with its count, which no reader uses. -/
structure Listing where
  root : Option ManifestNode
  nodeCount : UInt64

/-- The `ManifestResponse` of a tree. -/
def listingOf (tree : Tree) : Listing where
  root := tree.root.map convertTreeToManifest
  nodeCount := UInt64.ofNat (tree.root.elim 0 countNodes)

/-- What the callbacks of the transport read: the directory, its store and the tree of the start. -/
structure Daemon where
  absDir : Bytes
  store : BlobStore
  tree : Tree
  fileCount : ℕ

/-- The loop of `OnChunkRequest`. -/
def answerChunks (store : BlobStore) : List Bytes → ChunkResponse → Cmd ChunkResponse
  | [], resp => return resp
  | hash :: hashes, resp => do
      match ← store.get hash with
      | .error _ => answerChunks store hashes { resp with notFound := resp.notFound ++ [hash] }
      | .ok chunk =>
        answerChunks store hashes { resp with
          chunks := resp.chunks ++ [⟨hash, chunk.data, UInt32.ofNat chunk.data.length⟩] }

namespace Daemon

def onChunkRequest (d : Daemon) (chunkHashes : List Bytes) : Cmd ChunkResponse :=
  answerChunks d.store chunkHashes ⟨[], []⟩

/-- `OnManifestRequest`; the walk of the indexing returns no error. -/
def onManifestRequest (d : Daemon) : Cmd Listing := do
  let _ ← indexDirectory d.absDir d.store
  match ← buildFromFS d.absDir with
  | .error _ => return listingOf d.tree
  | .ok freshTree => return listingOf freshTree

end Daemon

/-- The steps of the start that depend on the network. -/
inductive ServeStep
  | transport
  | listen
deriving DecidableEq

section Program

variable [Allocator]

/-- The start prints eight bytes of the root hash. -/
def printsRoot (tree : Tree) : Go Unit :=
  match tree.root with
  | some root => do
      let _ ← Go.orPanic (front root.hash 8)
      return ()
  | none => .ok ()

/-- `serveCmd`, up to where it waits for connections. -/
def serveCmd (start : Except (ServeStep × Err) Unit) (absDir : Bytes) : Cmd (Go Daemon) := do
  match ← Sys.stat (storageDir absDir) with
  | .error .notExist =>
    return .error (.err (.text "directory not initialized - run 'p2p-file-sync init' first"))
  | _ =>
  match ← newBlobStore (storageDir absDir) with
  | .error e => return .error (.err (.wrap "creating blob store" e))
  | .ok store =>
  let counts ← indexDirectory absDir store
  match ← buildFromFS absDir with
  | .error e => return .error (.err (.wrap "building merkle tree" e))
  | .ok tree =>
  match start with
  | .error (.transport, e) => return .error (.err (.wrap "creating transport" e))
  | .error (.listen, e) => return .error (.err (.wrap "starting listener" e))
  | .ok () =>
  match printsRoot tree with
  | .error fault => return .error fault
  | .ok () => return .ok ⟨absDir, store, tree, counts.files⟩

end Program

/-! ### A directory that is served -/

/-- A directory whose name is not hidden, with a store in which every place of a chunk is vacant or
has that chunk. -/
structure Home (absDir : Bytes) (fs : Os.Fs) : Prop where
  abs : isAbs absDir
  shown : Merkle.hidden (base absDir) = false
  wf : fs.WF
  tidy : (storeOf absDir).Tidy fs
  sound : (storeOf absDir).Sound fs

/-- The store is below a name that starts with a dot. -/
theorem not_store_above {absDir : Bytes} (h : isAbs absDir) {q : List Bytes} (hq : Visible q) :
    ¬ resolve (storageDir absDir) <+: resolve absDir ++ q := by
  rw [resolve_storageDir h, List.prefix_append_right_inj]
  intro hpre
  have hmem : [46, 115, 116, 111, 114, 97, 103, 101] ∈ q := hpre.subset List.mem_cons_self
  exact absurd (hq _ hmem) (by decide)

/-- The directory of a store is there. -/
theorem isDir_of_ready {absDir : Bytes} (h : isAbs absDir) {fs : Os.Fs}
    (hready : (storeOf absDir).Ready fs) : Os.IsDir fs (resolve absDir) := by
  refine Os.view_dir_above ?_ ?_ hready.base
  · rw [BlobStore.place, resolve_storageDir h, List.append_assoc]
    exact List.prefix_append _ _
  · rw [BlobStore.place, resolve_storageDir h]
    simp [storageNames, BlobStore.loc]

/-- What stands below an entry. -/
theorem view_of_reach {fs : Os.Fs} {p : List Bytes} {e : Os.Entry} (h : Os.reach fs p = some e)
    (q : List Bytes) : Os.view fs (p ++ q) = Os.view (some e) q := by
  rw [Os.view, Os.view, Os.reach_append, h]

theorem content_of_reach {fs : Os.Fs} {p : List Bytes} {e : Os.Entry} (h : Os.reach fs p = some e)
    (q : List Bytes) : Os.content fs (p ++ q) = Os.content (some e) q := by
  rw [Os.content, view_of_reach h, ← Os.content]

/-- The chunks of a directory's manifest are those of its visible files. -/
theorem hasChunk_buildNode {e : Os.Entry} (he : e.WF) {name hash : Bytes} :
    HasChunk (convertTreeToManifest (buildNode name e)) hash ↔
      ∃ q c, Visible q ∧ Os.content (some e) q = some c ∧ hash ∈ (chunksOf c).map (·.hash) := by
  constructor
  · rintro ⟨q, n, hn, hhash⟩
    obtain ⟨hq, x, hx, rfl⟩ := (at_buildNode_iff he).1 hn
    cases x with
    | file m c => exact ⟨q, c, hq, Os.content_eq_some_iff_reach.2 ⟨m, hx⟩, hhash⟩
    | dir m es => simp [buildNode, convertTreeToManifest, Merkle.newDirNode,
        Merkle.Node.computeDirHash] at hhash
  · rintro ⟨q, c, hq, hc, hhash⟩
    obtain ⟨m, hm⟩ := Os.content_eq_some_iff_reach.1 hc
    exact ⟨q, _, (at_buildNode_iff he).2 ⟨hq, _, hm, rfl⟩, hhash⟩

/-- A directory with an empty store can be served. -/
theorem home_of_empty {absDir : Bytes} (habs : isAbs absDir)
    (hshown : Merkle.hidden (base absDir) = false) {fs : Os.Fs} (hwf : fs.WF) {mode : UInt32}
    (h : Os.reach fs (resolve (storageDir absDir)) = some (.dir mode [])) : Home absDir fs where
  abs := habs
  shown := hshown
  wf := hwf
  tidy := BlobStore.tidy_of_empty (isAbs_storageDir habs) h
  sound := (BlobStore.ready_and_sound_of_empty (isAbs_storageDir habs) h).2

theorem Home.grown {absDir : Bytes} {fs fs' : Os.Fs} (h : Home absDir fs)
    (hg : (storeOf absDir).Grown fs fs') (hwf : fs'.WF) : Home absDir fs' :=
  ⟨h.abs, h.shown, hwf, hg.tidy h.tidy, hg.sound h.sound⟩

/-! ### The callbacks -/

section Callbacks

variable {ν : Type} {answer : Request → ν → Exchange × ν} {w : World ν}

/-- The chunks of a request that a store has, in turn. -/
def found (store : BlobStore) (fs : Os.Fs) (hashes : List Bytes) : List Proto.Chunk :=
  hashes.filterMap fun hash =>
    (store.blob fs hash).map fun c => ⟨hash, c, UInt32.ofNat c.length⟩

/-- Those that it does not have. -/
def missing (store : BlobStore) (fs : Os.Fs) (hashes : List Bytes) : List Bytes :=
  hashes.filter fun hash => (store.blob fs hash).isNone

theorem wp_answerChunks {store : BlobStore} (hs : isAbs store.baseDir) (hashes : List Bytes)
    (resp : ChunkResponse) :
    Prog.wp (handle answer) (fun _ => True) (answerChunks store hashes resp)
      (fun out w' => w' = w ∧ out = ⟨resp.chunks ++ found store w.fs hashes,
        resp.notFound ++ missing store w.fs hashes⟩) w := by
  induction hashes generalizing resp with
  | nil => simp [answerChunks, found, missing]
  | cons h hashes ih =>
    refine Prog.wp_bind.2 (BlobStore.wp_get hs trivial (fun c hc => ?_) fun hnone e => ?_)
    · exact Prog.wp_mono (ih _) fun out w' hout => by simpa [found, missing, hc] using hout
    · exact Prog.wp_mono (ih _) fun out w' hout => by simpa [found, missing, hnone] using hout

/-- **A request for chunks gets what the store has, and is told what it does not have.** -/
theorem run_onChunkRequest {d : Daemon} (hs : isAbs d.store.baseDir) (hashes : List Bytes) :
    (d.onChunkRequest hashes).run (handle answer) w =
      (⟨found d.store w.fs hashes, missing d.store w.fs hashes⟩, w) := by
  obtain ⟨hw, hout⟩ := Prog.wp_run (h := handle answer)
    (wp_answerChunks (w := w) hs hashes ⟨[], []⟩)
  rw [Daemon.onChunkRequest]
  exact Prod.ext (by simpa using hout) hw

/-- Indexing a directory puts the chunks of its visible files into its store. -/
theorem wp_indexHome {absDir : Bytes} (hhome : Home absDir w.fs) :
    Prog.wp (handle answer) (fun _ => True) (indexDirectory absDir (storeOf absDir)) (fun _ w' =>
      ∃ fs', w' = { w with fs := fs' } ∧ Home absDir fs' ∧ (storeOf absDir).Grown w.fs fs' ∧
        ∀ q c, Visible q → Os.content fs' (resolve absDir ++ q) = some c →
          ∀ k ∈ chunksOf c, (storeOf absDir).blob fs' k.hash ≠ none) w := by
  have hs : isAbs (storeOf absDir).baseDir := isAbs_storageDir hhome.abs
  have hout : ∀ q, Visible q → ¬ resolve (storeOf absDir).baseDir <+: resolve absDir ++ q :=
    fun q hq => not_store_above hhome.abs hq
  refine Prog.wp_mono (wp_wf (wp_indexDirectory hhome.abs hs hout hhome.wf hhome.tidy.ready
    hhome.tidy.clear) hhome.wf) ?_
  rintro _ _ ⟨⟨fs', cs, rfl, hst, hhash, hcs⟩, hwf'⟩
  have hgrown := hst.grown hs hhome.tidy.ready.base hhash
  refine ⟨fs', rfl, hhome.grown hgrown hwf', hgrown, fun q c hq hc k hk => ?_⟩
  rw [Os.content_of_view (hgrown.outside (hout q hq))] at hc
  have hlen : 2 ≤ k.hash.length := by rw [Cas.length_hash_of_mem_chunksOf hk]; decide
  by_cases hheld : (storeOf absDir).Holds w.fs k.hash
  · obtain ⟨c', hblob⟩ := hhome.tidy.blob_of_holds hlen hheld
    simp [hgrown.blob hblob]
  · obtain ⟨c', -, -, hblob⟩ := hst.blob_new hs hlen hheld
      ⟨k, (hcs k).2 ⟨hhome.shown, q, c, hq, hc, hk⟩, rfl⟩
    simp [hblob]

/-- **A request for the manifest** is answered with the tree of the directory as it is; what it
mentions is in the store from then on, and nothing outside the store has changed. -/
theorem wp_onManifestRequest {d : Daemon} (hstore : d.store = storeOf d.absDir)
    (hhome : Home d.absDir w.fs) :
    Prog.wp (handle answer) (fun _ => True) d.onManifestRequest (fun r w' => ∃ fs' m es,
      w' = { w with fs := fs' } ∧ Home d.absDir fs' ∧ d.store.Grown w.fs fs' ∧
      Os.reach fs' (resolve d.absDir) = some (.dir m es) ∧
      r = listingOf ⟨some (buildNode (base d.absDir) (.dir m es))⟩ ∧
      ∀ q c, Visible q → Os.content fs' (resolve d.absDir ++ q) = some c →
        ∀ k ∈ chunksOf c, d.store.blob fs' k.hash ≠ none) w := by
  rw [Daemon.onManifestRequest, hstore]
  refine Prog.wp_bind.2 (Prog.wp_mono (wp_indexHome hhome) ?_)
  rintro _ _ ⟨fs', rfl, hhome', hgrown, hserved⟩
  refine Prog.wp_bind.2 (Merkle.wp_buildFromFS trivial (fun m es hreach => ?_) fun hno => ?_)
  · exact ⟨fs', m, es, rfl, hhome', hgrown, hreach, rfl, hserved⟩
  · obtain ⟨m, hm⟩ := isDir_of_ready hhome.abs hhome'.tidy.ready
    obtain ⟨es, hes⟩ := Os.stat_of_view_dir hm
    exact (hno m es (Os.stat_ok.1 hes)).elim

end Callbacks

/-! ### The daemon behind a connection -/

/-- The requests of a sync: a few hashes at a time. -/
def Modest : Request → Prop
  | .manifest => True
  | .chunks hashes => hashes.length ≤ batchSize ∧ ∀ hash ∈ hashes, hash.length = 32

/-- What a sync needs of its peer, as long as the peer is in a state that is `good`.  `data n hash`
is what the peer has under `hash` in state `n`. -/
structure Provider {ν : Type} (answer : Request → ν → Exchange × ν)
    (data : ν → Bytes → Option Bytes) (good : ν → Prop) : Prop where
  genuine : ∀ {n hash c}, good n → data n hash = some c → (sum256 c).bytes = hash
  keeps : ∀ {n hash c} req, good n → Modest req → data n hash = some c →
    data (answer req n).2 hash = some c
  stays : ∀ {n} req, good n → Modest req → good (answer req n).2
  manifest : ∀ {n}, good n → ∃ root, manifestReply (answer .manifest n).1 = .ok ⟨some root⟩ ∧
    Advertised root ∧ ∀ hash, HasChunk root hash → data (answer .manifest n).2 hash ≠ none
  chunks : ∀ {n} hashes, good n → Modest (.chunks hashes) →
    ∃ resp, Net.chunkReply (answer (.chunks hashes) n).1 = .ok resp ∧
      ∀ hash ∈ hashes, ∀ c, data n hash = some c → c ∈ resp.chunks.map (·.data)

namespace Daemon

/-- The directory can still be served and the store has what it had: what other programs, and
requests of other peers, leave behind. -/
def Lasts {μ : Type} (d : Daemon) (w w' : World μ) : Prop :=
  Home d.absDir w'.fs ∧
    ∀ hash c, d.store.blob w.fs hash = some c → d.store.blob w'.fs hash = some c

/-- The peer is the daemon, in the world `world n`.  Before it takes a request its world may have
become another, and its replies arrive as they were sent. -/
structure Behind {ν μ : Type} (d : Daemon) (nobody : Request → μ → Exchange × μ)
    (answer : Request → ν → Exchange × ν) (world : ν → World μ) : Prop where
  home : ∀ n, Home d.absDir (world n).fs
  manifest : ∀ n, ∃ w env, d.Lasts (world n) w ∧ (answer .manifest n).1 = .ok env ∧
    env.asManifest = .ok ⟨(d.onManifestRequest.run (handle nobody) w).1.root⟩ ∧
    world (answer .manifest n).2 = (d.onManifestRequest.run (handle nobody) w).2
  chunks : ∀ hashes n, ∃ w env, d.Lasts (world n) w ∧ (answer (.chunks hashes) n).1 = .ok env ∧
    env.type = .chunkResponse ∧
    env.asChunks = .ok ((d.onChunkRequest hashes).run (handle nobody) w).1 ∧
    world (answer (.chunks hashes) n).2 = ((d.onChunkRequest hashes).run (handle nobody) w).2

end Daemon

section Behind

variable {ν μ : Type} {d : Daemon} {nobody : Request → μ → Exchange × μ}
  {answer : Request → ν → Exchange × ν} {world : ν → World μ}

/-- The manifest that the daemon sends is that of its directory when it was made. -/
theorem Daemon.Behind.reply (h : d.Behind nobody answer world) (hstore : d.store = storeOf d.absDir)
    (n : ν) : ∃ w m es, d.Lasts (world n) w ∧
      (∀ q, Visible q → Os.view (world (answer .manifest n).2).fs (resolve d.absDir ++ q) =
        Os.view w.fs (resolve d.absDir ++ q)) ∧
      Os.reach (world (answer .manifest n).2).fs (resolve d.absDir) = some (.dir m es) ∧
      manifestReply (answer .manifest n).1 =
        .ok ⟨some (convertTreeToManifest (buildNode (base d.absDir) (.dir m es)))⟩ ∧
      (∀ q c, Visible q → Os.content (some (.dir m es)) q = some c → ∀ k ∈ chunksOf c,
        d.store.blob (world (answer .manifest n).2).fs k.hash ≠ none) ∧
      ∀ hash c, d.store.blob w.fs hash = some c →
        d.store.blob (world (answer .manifest n).2).fs hash = some c := by
  obtain ⟨w, env, hlasts, hreply, hman, hworld⟩ := h.manifest n
  obtain ⟨fs', m, es, hw', -, hgrown, hreach, hr, hserved⟩ :=
    Prog.wp_run (h := handle nobody) (wp_onManifestRequest hstore hlasts.1)
  rw [hworld, hw']
  refine ⟨w, m, es, hlasts, fun q hq => hgrown.outside ?_, hreach, ?_, ?_, fun _ _ => hgrown.blob⟩
  · exact hstore ▸ not_store_above hlasts.1.abs hq
  · rw [hreply, manifestReply, hman, hr]
    rfl
  · intro q c hq hc
    exact hserved q c hq ((content_of_reach hreach q).trans hc)

/-- What the daemon has, it keeps. -/
theorem Daemon.Behind.keeps (h : d.Behind nobody answer world) (hstore : d.store = storeOf d.absDir)
    {n : ν} {hash c : Bytes} (req : Request) (hc : d.store.blob (world n).fs hash = some c) :
    d.store.blob (world (answer req n).2).fs hash = some c := by
  cases req with
  | manifest =>
    obtain ⟨w, m, es, hlasts, -, -, -, -, hkeeps⟩ := h.reply hstore n
    exact hkeeps hash c (hlasts.2 hash c hc)
  | chunks hashes =>
    obtain ⟨w, env, hlasts, -, -, -, hworld⟩ := h.chunks hashes n
    rw [hworld, run_onChunkRequest (hstore ▸ isAbs_storageDir hlasts.1.abs)]
    exact hlasts.2 hash c hc

/-- What a response has of a store. -/
theorem mem_found {store : BlobStore} {fs : Os.Fs} {hashes : List Bytes} {hash c : Bytes}
    (hmem : hash ∈ hashes) (hc : store.blob fs hash = some c) :
    c ∈ (found store fs hashes).map (·.data) := by
  refine List.mem_map.2 ⟨⟨hash, c, UInt32.ofNat c.length⟩, ?_, rfl⟩
  exact List.mem_filterMap.2 ⟨hash, hmem, by rw [hc]; rfl⟩

/-- And sends it. -/
theorem Daemon.Behind.sends (h : d.Behind nobody answer world) (hstore : d.store = storeOf d.absDir)
    (hashes : List Bytes) (n : ν) :
    ∃ resp, Net.chunkReply (answer (.chunks hashes) n).1 = .ok resp ∧
      ∀ hash ∈ hashes, ∀ c, d.store.blob (world n).fs hash = some c →
        c ∈ resp.chunks.map (·.data) := by
  obtain ⟨w, env, hlasts, hreply, htype, hchunks, -⟩ := h.chunks hashes n
  rw [run_onChunkRequest (hstore ▸ isAbs_storageDir hlasts.1.abs)] at hchunks
  refine ⟨⟨found d.store w.fs hashes, missing d.store w.fs hashes⟩,
    by simp [hreply, Net.chunkReply, htype, hchunks, Except.mapError], fun hash hmem c hc => ?_⟩
  exact mem_found hmem (hlasts.2 hash c hc)

/-- The chunks of a manifest are those of the directory it was made of. -/
theorem served_of_visible {fs : Os.Fs} {absDir : Bytes} {store : BlobStore} (hwf : fs.WF)
    {m : UInt32} {es : List (Bytes × Os.Entry)}
    (hreach : Os.reach fs (resolve absDir) = some (.dir m es))
    (h : ∀ q c, Visible q → Os.content (some (.dir m es)) q = some c →
      ∀ k ∈ chunksOf c, store.blob fs k.hash ≠ none) {hash : Bytes}
    (hhash : HasChunk (convertTreeToManifest (buildNode (base absDir) (.dir m es))) hash) :
    store.blob fs hash ≠ none := by
  obtain ⟨q, c, hq, hc, hmem⟩ := (hasChunk_buildNode (Os.wf_reach hwf _ _ hreach)).1 hhash
  obtain ⟨k, hk, rfl⟩ := List.mem_map.1 hmem
  exact h q c hq hc k hk

/-- **The daemon is a provider.** -/
theorem daemon_provider (h : d.Behind nobody answer world) (hstore : d.store = storeOf d.absDir) :
    Provider answer (fun n => d.store.blob (world n).fs) fun _ => True where
  genuine := fun _ hc => (hstore ▸ (h.home _).sound) _ _ hc
  keeps := fun req _ _ hc => h.keeps hstore req hc
  stays := fun _ _ _ => trivial
  manifest := by
    intro n _
    obtain ⟨w, m, es, -, -, hreach, hreply, hserved, -⟩ := h.reply hstore n
    have hwf := (h.home (answer .manifest n).2).wf
    exact ⟨_, hreply, advertised_of_reach _ d.absDir hwf hreach,
      fun hash hhash => served_of_visible hwf hreach hserved hhash⟩
  chunks := fun hashes _ _ => h.sends hstore hashes _

/-- What is left of the peer after some requests. -/
def afterAll (answer : Request → ν → Exchange × ν) (reqs : List Request) (n : ν) : ν :=
  reqs.foldl (fun n req => (answer req n).2) n

theorem Daemon.Behind.keeps_all (h : d.Behind nobody answer world)
    (hstore : d.store = storeOf d.absDir) (reqs : List Request) {n : ν} {hash c : Bytes}
    (hc : d.store.blob (world n).fs hash = some c) :
    d.store.blob (world (afterAll answer reqs n)).fs hash = some c := by
  induction reqs generalizing n with
  | nil => exact hc
  | cons req reqs ih => exact ih (h.keeps hstore req hc)

/-- **What the daemon has listed, it can send.**  After it has sent a manifest, whatever requests
came since and whatever was done to its files outside its store, a request for one of the manifest's
chunks is answered with bytes that have this hash. -/
theorem daemon_sends_what_it_lists (h : d.Behind nobody answer world)
    (hstore : d.store = storeOf d.absDir) (n : ν) (reqs : List Request) : ∃ root,
      manifestReply (answer .manifest n).1 = .ok ⟨some root⟩ ∧
      ∀ hashes hash, hash ∈ hashes → HasChunk root hash → ∃ resp,
        Net.chunkReply (answer (.chunks hashes) (afterAll answer reqs (answer .manifest n).2)).1 =
            .ok resp ∧
          ∃ c ∈ resp.chunks, (sum256 c.data).bytes = hash := by
  have hprov := daemon_provider h hstore
  obtain ⟨root, hreply, -, hhas⟩ := hprov.manifest (n := n) trivial
  refine ⟨root, hreply, fun hashes hash hmem hchunk => ?_⟩
  obtain ⟨c, hc⟩ := Option.ne_none_iff_exists'.1 (hhas hash hchunk)
  have hlater := h.keeps_all hstore reqs hc
  obtain ⟨resp, hresp, hsent⟩ := h.sends hstore hashes (afterAll answer reqs (answer .manifest n).2)
  obtain ⟨chunk, hchunk, hdata⟩ := List.mem_map.1 (hsent hash hmem c hlater)
  exact ⟨resp, hresp, chunk, hchunk, by rw [hdata]; exact hprov.genuine trivial hlater⟩

end Behind

/-! ### A daemon that nobody else disturbs -/

namespace Daemon

variable {μ : Type} (d : Daemon) (hstore : d.store = storeOf d.absDir)
  (nobody : Request → μ → Exchange × μ)

include hstore in
theorem home_onManifestRequest {w : World μ} (h : Home d.absDir w.fs) :
    Home d.absDir (d.onManifestRequest.run (handle nobody) w).2.fs := by
  obtain ⟨fs', m, es, hw', hhome, -⟩ :=
    Prog.wp_run (h := handle nobody) (wp_onManifestRequest hstore h)
  rw [hw']
  exact hhome

include hstore in
theorem home_onChunkRequest {w : World μ} (h : Home d.absDir w.fs) (hashes : List Bytes) :
    Home d.absDir ((d.onChunkRequest hashes).run (handle nobody) w).2.fs := by
  rw [run_onChunkRequest (hstore ▸ isAbs_storageDir h.abs)]
  exact h

/-- The requests of one peer, each served when it comes. -/
def answer : Request → {w : World μ // Home d.absDir w.fs} →
    Exchange × {w : World μ // Home d.absDir w.fs}
  | .manifest, w =>
    let out := d.onManifestRequest.run (handle nobody) w.1
    (.ok ⟨.manifestResponse, .ok ⟨out.1.root⟩, .error .eof⟩,
      ⟨out.2, d.home_onManifestRequest hstore nobody w.2⟩)
  | .chunks hashes, w =>
    let out := (d.onChunkRequest hashes).run (handle nobody) w.1
    (.ok ⟨.chunkResponse, .error .eof, .ok out.1⟩,
      ⟨out.2, d.home_onChunkRequest hstore nobody w.2 hashes⟩)

theorem behind_answer : d.Behind nobody (d.answer hstore nobody) Subtype.val where
  home := fun w => w.2
  manifest := fun w => ⟨w.1, _, ⟨w.2, fun _ _ hc => hc⟩, rfl, rfl, rfl⟩
  chunks := fun _ w => ⟨w.1, _, ⟨w.2, fun _ _ hc => hc⟩, rfl, rfl, rfl, rfl⟩

end Daemon

/-- A directory with one file and an empty store. -/
def oneFileHome (file content : Bytes) : Os.Entry :=
  .dir 0o755 [(file, .file 0o644 content), ([46, 115, 116, 111, 114, 97, 103, 101],
    .dir 0o755 [([99, 104, 117, 110, 107, 115], .dir 0o755 [])])]

theorem wf_oneFileHome {file : Bytes} (hfile : Plain file) (hshown : Merkle.hidden file = false)
    (content : Bytes) : (oneFileHome file content).WF := by
  have hne : file ≠ [46, 115, 116, 111, 114, 97, 103, 101] := by
    rintro rfl
    exact absurd hshown (by decide)
  refine .dir _ (by simpa using hne) ?_ (List.forall_mem_cons.2 ⟨.file _ _,
    List.forall_mem_cons.2 ⟨?_, by simp⟩⟩)
  · simp only [List.forall_mem_cons]
    exact ⟨hfile, by decide, by simp⟩
  · exact .dir _ (by decide) (by decide) (List.forall_mem_cons.2
      ⟨.dir _ (by decide) (by decide) (by simp), by simp⟩)

/-- The directory `/h` of a daemon, with the file `a`. -/
def hostWorld : World Unit := ⟨some (.dir 0o755 [([104], oneFileHome [97] [7])]), 0o022, ()⟩

theorem wf_oneHome {name file : Bytes} (hname : Plain name) (hfile : Plain file)
    (hshown : Merkle.hidden file = false) (content : Bytes) :
    (Os.Entry.dir 0o755 [(name, oneFileHome file content)]).WF :=
  .dir _ (by simp) (by simpa using hname)
    (List.forall_mem_cons.2 ⟨wf_oneFileHome hfile hshown content, by simp⟩)

theorem home_hostWorld : Home [47, 104] hostWorld.fs :=
  home_of_empty (by decide) (by decide)
    (Os.wf_some.2 (wf_oneHome (by decide) (by decide) (by decide) _)) rfl

/-- The daemon of the directory `/h`. -/
def hostDaemon : Daemon := ⟨[47, 104], storeOf [47, 104], ⟨none⟩, 0⟩

def noPeer : Request → Unit → Exchange × Unit := fun _ n => (.error (.opening, .eof), n)

/-- The daemon of `/h`, with its manifest asked for twice. -/
theorem daemon_sends_what_it_lists_host : ∃ root,
    manifestReply (hostDaemon.answer rfl noPeer .manifest ⟨hostWorld, home_hostWorld⟩).1 =
        .ok ⟨some root⟩ ∧
      ∀ hashes hash, hash ∈ hashes → HasChunk root hash → ∃ resp,
        Net.chunkReply (hostDaemon.answer rfl noPeer (.chunks hashes)
          (afterAll (hostDaemon.answer rfl noPeer) [.manifest]
            (hostDaemon.answer rfl noPeer .manifest ⟨hostWorld, home_hostWorld⟩).2)).1 = .ok resp ∧
          ∃ c ∈ resp.chunks, (sum256 c.data).bytes = hash :=
  daemon_sends_what_it_lists (hostDaemon.behind_answer rfl noPeer) rfl _ _

end FileSync.Cli
