import FileSync.Cli.Index
import FileSync.Cli.Manifest
import FileSync.Diff.Trees
import FileSync.Net.SyncManager

/-!
# Cli — the sync command

`syncCmd` indexes a directory into its store, asks a peer for its manifest, downloads the chunks
that it needs and does not have, writes the files of the manifest and removes what the manifest has
not (`cmd/p2p-file-sync/main.go`).

A chunk that arrives is put under the hash of its data, whatever hash it came with.

* `Keeps p`: whatever the peer answers, `p` leaves a sound store sound at every step.
* `sync_integrity`: so does the command; and if it completes, the file of every node of the manifest
  that has chunks is made of pieces with the hashes of the chunks, in order.
-/

open Sha256 Filepath

namespace FileSync.Cli

open Proto (ManifestNode ManifestResponse Request Exchange)
open Cas (BlobStore Chunk newBlobStore)
open Merkle (Node Tree Visible buildFromFS)

/-! ### The program -/

/-- What `requestManifest` makes of the exchange; the type of the reply is not looked at. -/
def manifestReply : Exchange → Except Err ManifestResponse
  | .error (_, e) => .error e
  | .ok env => env.asManifest

def requestManifest : Cmd (Except Err ManifestResponse) := do
  return manifestReply (← Sys.exchange .manifest)

/-- The hashes that the store does not have. -/
def missingOf (store : BlobStore) : List Bytes → Cmd (List Bytes)
  | [] => return []
  | hash :: hashes => do
      let found ← store.has hash
      let rest ← missingOf store hashes
      return if found then rest else hash :: rest

mutual

def collectMissingChunks (store : BlobStore) : ManifestNode → Cmd (List Bytes)
  | n@{ children := cs, .. } => do
      let missing ← missingOf store n.chunks
      let below ← collectMissingBelow store cs
      return missing ++ below

/-- The loop over the nodes of a list. -/
def collectMissingBelow (store : BlobStore) : List ManifestNode → Cmd (List Bytes)
  | [] => return []
  | c :: cs => do
      let missing ← collectMissingChunks store c
      let rest ← collectMissingBelow store cs
      return missing ++ rest

end

def batchSize : ℕ := 10

/-- The chunk as it is put: under the hash of its data. -/
def casChunk (chunk : Proto.Chunk) : Chunk := ⟨(sum256 chunk.data).bytes, 0, chunk.data⟩

/-- The loop over the chunks of one response: a `Put` that fails is only logged. -/
def storeChunks (store : BlobStore) : List Proto.Chunk → ℕ → Cmd ℕ
  | [], downloaded => return downloaded
  | c :: cs, downloaded => do
      match ← store.put (casChunk c) with
      | .error _ => storeChunks store cs downloaded
      | .ok _ => storeChunks store cs (downloaded + 1)

/-- The loop over the batches. -/
def download (store : BlobStore) : List (List Bytes) → ℕ → Cmd (ℕ × Option Err)
  | [], downloaded => return (downloaded, none)
  | batch :: batches, downloaded => do
      match ← Net.requestChunks batch with
      | .error e => return (downloaded, some (.wrap "chunk download failed" e))
      | .ok resp => download store batches (← storeChunks store resp.chunks downloaded)

/-- The loop over the paths that are deleted: an error is only logged. -/
def deleteAll (absDir : Bytes) : List Bytes → Cmd Unit
  | [] => return ()
  | path :: paths => do
      let _ ← Sys.remove (join [absDir, path])
      deleteAll absDir paths

section Program

variable [Allocator]

/-- What follows the comparison of the manifests: the number of files written. -/
def applyDiff (absDir : Bytes) (store : BlobStore) (root : ManifestNode) (diff : Diff.DiffResult) :
    Cmd (Go ℕ) := do
  let added ← collectMissingBelow store diff.added
  let modified ← collectMissingBelow store diff.modified
  match ← download store (Blocks.blocks batchSize (added ++ modified)) 0 with
  | (_, some e) => return .error (.err e)
  | (_, none) =>
  match ← reconstructFiles absDir (some root) store with
  | (_, some (.err e)) => return .error (.err (.wrap "reconstructing files" e))
  | (_, some fault) => return .error fault
  | (filesWritten, none) => do
      deleteAll absDir diff.deleted
      return .ok filesWritten

/-- How the command ends well. -/
inductive Synced
  | noRemoteFiles
  | complete (filesWritten : ℕ)
deriving DecidableEq

/-- Where the connection to the peer can fail. -/
inductive DialStep
  | transport
  | connect
deriving DecidableEq

/-- The names `.storage` and `chunks`. -/
def storageNames : List Bytes :=
  [[46, 115, 116, 111, 114, 97, 103, 101], [99, 104, 117, 110, 107, 115]]

def storageDir (absDir : Bytes) : Bytes := join (absDir :: storageNames)

/-- The first eight bytes of both roots are printed, if there are both. -/
def printsRoots (localTree : Tree) (peer : Net.Peer) : Go Unit :=
  match localTree.root, peer.merkleRoot with
  | some localRoot, some merkleRoot => do
      let _ ← Go.orPanic (front localRoot.hash 8)
      let _ ← Go.orPanic (front merkleRoot 8)
      return ()
  | _, _ => .ok ()

/-- `syncCmd`, in the directory `absDir`; `dial` is what came of connecting to the peer. -/
def syncCmd (ord : Diff.DiffOrder) (dial : Except (DialStep × Err) Net.Peer) (absDir : Bytes) :
    Cmd (Go Synced) := do
  match ← Sys.stat (storageDir absDir) with
  | .error .notExist =>
    return .error (.err (.text "directory not initialized - run 'p2p-file-sync init' first"))
  | _ =>
  match ← newBlobStore (storageDir absDir) with
  | .error e => return .error (.err (.wrap "creating blob store" e))
  | .ok store =>
  let _ ← indexDirectory absDir store
  match ← buildFromFS absDir with
  | .error e => return .error (.err (.wrap "building merkle tree" e))
  | .ok localTree =>
  match dial with
  | .error (.transport, e) => return .error (.err (.wrap "creating transport" e))
  | .error (.connect, e) => return .error (.err (.wrap "connecting to peer" e))
  | .ok peer =>
  match printsRoots localTree peer with
  | .error fault => return .error fault
  | .ok () =>
  match ← requestManifest with
  | .error e => return .error (.err (.wrap "requesting manifest" e))
  | .ok manifest =>
  match manifest.root with
  | none => return .ok .noRemoteFiles
  | some root =>
  match Diff.diffTrees ord (localTree.root.map convertTreeToManifest) (some root) with
  | .error fault => return .error fault
  | .ok diff =>
  match ← applyDiff absDir store root diff with
  | .error fault => return .error fault
  | .ok filesWritten => return .ok (.complete filesWritten)

/-- There is room for what is printed. -/
theorem printsRoots_ok {n : Node} {peer : Net.Peer} (hn : 8 ≤ n.hash.length)
    (hroot : ∀ root ∈ peer.merkleRoot, 8 ≤ Allocator.cap root.length) :
    printsRoots ⟨some n⟩ peer = .ok () := by
  unfold printsRoots
  obtain ⟨start, hstart⟩ := exists_front hn
  cases h : peer.merkleRoot with
  | none => rfl
  | some root =>
    dsimp only
    rw [hstart, front, if_pos (hroot root h)]
    rfl

end Program

theorem le_length_hash_root (absDir : Bytes) (m : UInt32) (es : List (Bytes × Os.Entry)) :
    8 ≤ (Merkle.buildNode (base absDir) (.dir m es)).hash.length := by
  rw [Merkle.length_hash_buildNode]
  decide

/-! ### What leaves the store sound -/

section Keeps

variable {ν α β : Type} (answer : Request → ν → Exchange × ν) (store : BlobStore) (N : ν → Prop)

/-- Where the store's directory is in place, the store is sound and the peer in a state of `N`, the
command leaves it so, and the store sound after every call. -/
def Keeps (p : Cmd α) : Prop :=
  ∀ w : World ν, store.Holds w.fs [] → store.Sound w.fs → N w.net →
    Prog.wp (handle answer) (fun w => store.Sound w.fs) p
      (fun _ w' => store.Holds w'.fs [] ∧ store.Sound w'.fs ∧ N w'.net) w

variable {answer store N}

theorem keeps_ret (a : α) : Keeps answer store N (.ret a) :=
  fun _ hbase hsound hN => ⟨hbase, hsound, hN⟩

theorem keeps_bind {p : Cmd α} {f : α → Cmd β} (hp : Keeps answer store N p)
    (hf : ∀ a, Keeps answer store N (f a)) : Keeps answer store N (p >>= f) := by
  intro w hbase hsound hN
  refine Prog.wp_bind.2 (Prog.wp_mono (hp w hbase hsound hN) ?_)
  rintro a w' ⟨hbase', hsound', hN'⟩
  exact hf a w' hbase' hsound' hN'

/-- A call that changes nothing. -/
theorem keeps_read {o : Op} (ho : ∀ w, (handle answer o w).2 = w) {f : o.Resp → Cmd α}
    (hf : ∀ r, Keeps answer store N (f r)) : Keeps answer store N (.call o .ret >>= f) := by
  intro w hbase hsound hN
  rw [← ho w] at hbase hsound hN
  exact ⟨hsound, hf _ _ hbase hsound hN⟩

theorem keeps_exchange (hN : ∀ req n, N n → N (answer req n).2) {req : Request}
    {f : Exchange → Cmd α} (hf : ∀ r, Keeps answer store N (f r)) :
    Keeps answer store N (Sys.exchange req >>= f) :=
  fun w hbase hsound hw => wp_exchange.2 ⟨hsound, hf _ _ hbase hsound (hN req w.net hw)⟩

theorem keeps_put (hs : isAbs store.baseDir) {chunk : Chunk}
    (h : (sum256 chunk.data).bytes = chunk.hash) : Keeps answer store N (store.put chunk) := by
  intro w hbase hsound hN
  refine Prog.wp_mono (BlobStore.put_spec hs hbase fun fs' heff => heff.sound hs hsound h) ?_
  rintro r _ ⟨fs', rfl, heff, -⟩
  exact ⟨heff.holds_mono hs hbase, heff.sound hs hsound h, hN⟩

theorem keeps_putChunks (hs : isAbs store.baseDir) (chunks : List Chunk)
    (h : ∀ c ∈ chunks, (sum256 c.data).bytes = c.hash) (n : ℕ) :
    Keeps answer store N (putChunks store chunks n) := by
  induction chunks generalizing n with
  | nil => exact keeps_ret _
  | cons c cs ih =>
    rw [List.forall_mem_cons] at h
    refine keeps_bind (keeps_put hs h.1) fun r => ?_
    cases r with
    | error e => exact keeps_ret _
    | ok new => exact ih h.2 (n + 1)

theorem keeps_indexFile (hs : isAbs store.baseDir) (path : Bytes) :
    Keeps answer store N (indexFile store path) := by
  refine keeps_read (fun _ => rfl) fun r => ?_
  rcases r with e | _
  · exact keeps_ret _
  · refine keeps_read (fun _ => rfl) fun r => ?_
    rcases r with e | data
    · exact keeps_ret _
    · exact keeps_putChunks hs _ (fun _ => Cas.hash_of_mem_chunksOf) 0

theorem keeps_inTurn {xs : List (Bytes × Cmd Counts)} (h : ∀ x ∈ xs, Keeps answer store N x.2) :
    Keeps answer store N (inTurn xs) := by
  induction xs with
  | nil => exact keeps_ret _
  | cons x xs ih =>
    rw [List.forall_mem_cons] at h
    exact keeps_bind h.1 fun _ => keeps_bind (ih h.2) fun _ => keeps_ret _

mutual

theorem keeps_walkEntry (hs : isAbs store.baseDir) (path : Bytes) :
    ∀ e : Os.Entry, Keeps answer store N (walkEntry store path e)
  | .file m c => by
    rw [walkEntry]
    split
    · exact keeps_ret _
    · exact keeps_indexFile hs path
  | .dir m es => by
    rw [walkEntry]
    split
    · exact keeps_ret _
    · exact keeps_inTurn fun x hx =>
        keeps_walkEntries hs path es x ((List.mem_insertionSort _).1 hx)

theorem keeps_walkEntries (hs : isAbs store.baseDir) (path : Bytes) :
    ∀ es : List (Bytes × Os.Entry), ∀ x ∈ walkEntries store path es, Keeps answer store N x.2
  | [], x, hx => nomatch hx
  | (name, e) :: es, x, hx => by
    rw [walkEntries] at hx
    rcases List.mem_cons.1 hx with rfl | hx
    · exact keeps_walkEntry hs _ e
    · exact keeps_walkEntries hs path es x hx

end

theorem keeps_indexDirectory (hs : isAbs store.baseDir) (dir : Bytes) :
    Keeps answer store N (indexDirectory dir store) := by
  refine keeps_read (fun _ => rfl) fun r => ?_
  rcases r with e | e
  · exact keeps_ret _
  · exact keeps_walkEntry hs dir e

theorem keeps_missingOf (hashes : List Bytes) : Keeps answer store N (missingOf store hashes) := by
  induction hashes with
  | nil => exact keeps_ret _
  | cons hash hashes ih =>
    refine keeps_bind (keeps_read (fun _ => rfl) fun r => ?_) fun _ =>
      keeps_bind ih fun _ => keeps_ret _
    rcases r with e | e <;> exact keeps_ret _

mutual

theorem keeps_collectMissingChunks :
    ∀ n : ManifestNode, Keeps answer store N (collectMissingChunks store n)
  | { children := cs, .. } => by
    rw [collectMissingChunks]
    exact keeps_bind (keeps_missingOf _) fun _ =>
      keeps_bind (keeps_collectMissingBelow cs) fun _ => keeps_ret _

theorem keeps_collectMissingBelow :
    ∀ cs : List ManifestNode, Keeps answer store N (collectMissingBelow store cs)
  | [] => keeps_ret _
  | c :: cs => by
    rw [collectMissingBelow]
    exact keeps_bind (keeps_collectMissingChunks c) fun _ =>
      keeps_bind (keeps_collectMissingBelow cs) fun _ => keeps_ret _

end

theorem keeps_storeChunks (hs : isAbs store.baseDir) (chunks : List Proto.Chunk) (n : ℕ) :
    Keeps answer store N (storeChunks store chunks n) := by
  induction chunks generalizing n with
  | nil => exact keeps_ret _
  | cons c cs ih =>
    -- The chunk is put under the hash of its data, which is all that matters here.
    refine keeps_bind (keeps_put hs rfl) fun r => ?_
    rcases r with e | new
    · exact ih n
    · exact ih (n + 1)

theorem keeps_download (hs : isAbs store.baseDir) (hN : ∀ req n, N n → N (answer req n).2)
    (batches : List (List Bytes)) (n : ℕ) :
    Keeps answer store N (download store batches n) := by
  induction batches generalizing n with
  | nil => exact keeps_ret _
  | cons batch batches ih =>
    refine keeps_bind (keeps_exchange hN fun r => keeps_ret _) fun r => ?_
    rcases r with e | resp
    · exact keeps_ret _
    · exact keeps_bind (keeps_storeChunks hs _ n) fun n => ih n

end Keeps

/-! ### Integrity -/

/-- The content is made of pieces with these hashes, in order. -/
def Pieces (hashes : List Bytes) (content : Bytes) : Prop :=
  ∃ pieces : List Bytes, pieces.flatten = content ∧
    pieces.map (fun piece => (sum256 piece).bytes) = hashes

/-- What a sound store has of the chunks of a file. -/
theorem pieces_assembled {store : BlobStore} {fs : Os.Fs} (hsound : store.Sound fs)
    {hashes : List Bytes} (h : (assembled (store.blob fs) hashes).2 = true) :
    Pieces hashes (assembled (store.blob fs) hashes).1 := by
  obtain ⟨hcontents, hall⟩ := assembled_complete h
  refine ⟨_, hcontents.symm, ?_⟩
  rw [List.map_map]
  refine (List.map_congr_left fun hash hmem => ?_).trans (List.map_id hashes)
  obtain ⟨data, hdata⟩ := hall hash hmem
  rw [Function.comp_apply, hdata, Option.getD_some, hsound hash data hdata, id_eq]

/-- The store of a directory. -/
abbrev storeOf (absDir : Bytes) : BlobStore := ⟨storageDir absDir⟩

theorem isAbs_storageDir {absDir : Bytes} (h : isAbs absDir) : isAbs (storageDir absDir) := by
  rw [storageDir, join_of_isAbs h]
  exact isAbs_ofNames _

theorem resolve_storageDir {absDir : Bytes} (h : isAbs absDir) :
    resolve (storageDir absDir) = resolve absDir ++ storageNames := by
  have hnames : ∀ c ∈ storageNames, Plain c := by decide
  have hsplit : storageNames.flatMap split = storageNames := by decide
  rw [storageDir, join_of_isAbs h, hsplit, foldl_descend_plain hnames, resolve_ofNames]
  exact List.forall_mem_append.2 ⟨fun _ => plain_of_mem_resolve, hnames⟩

/-- The store is in a directory whose name starts with a dot. -/
theorem place_ne_visible {absDir : Bytes} (h : isAbs absDir) {q : List Bytes} (hq : Visible q)
    (hash : Bytes) : (storeOf absDir).place hash ≠ resolve absDir ++ q := by
  rw [BlobStore.place, resolve_storageDir h, List.append_assoc]
  intro heq
  have hmem : [46, 115, 116, 111, 114, 97, 103, 101] ∈ q := by
    rw [← List.append_cancel_left heq]
    exact List.mem_cons_self
  exact absurd (hq _ hmem) (by decide)

/-- Every file of the manifest that has chunks is there, made of pieces with their hashes. -/
def Written (absDir : Bytes) (root : ManifestNode) (fs : Os.Fs) : Prop :=
  ∀ q n, root.At q n → n.isDir = false → n.chunks ≠ [] →
    ∃ c, Os.content fs (resolve absDir ++ q) = some c ∧ Pieces n.chunks c

section Integrity

variable {ν : Type} {answer : Request → ν → Exchange × ν} {I : World ν → Prop} {w : World ν}
  {absDir : Bytes}

/-- Only what is at the paths is removed. -/
theorem deleteAll_spec {paths : List Bytes}
    (hI : ∀ fs', (∀ q, (∀ p ∈ paths, q ≠ resolve (join [absDir, p])) →
      Os.content fs' q = Os.content w.fs q) → I { w with fs := fs' }) :
    Prog.wp (handle answer) I (deleteAll absDir paths) (fun _ w' => ∃ fs',
      w' = { w with fs := fs' } ∧ ∀ q, (∀ p ∈ paths, q ≠ resolve (join [absDir, p])) →
        Os.content fs' q = Os.content w.fs q) w := by
  induction paths generalizing w with
  | nil => exact ⟨w.fs, rfl, fun _ _ => rfl⟩
  | cons p paths ih =>
    have hrest {fs₁ : Os.Fs} (h₁ : ∀ q, q ≠ resolve (join [absDir, p]) →
        Os.content fs₁ q = Os.content w.fs q) :
        I { w with fs := fs₁ } ∧ Prog.wp (handle answer) I (deleteAll absDir paths)
          (fun _ w' => ∃ fs', w' = { w with fs := fs' } ∧
            ∀ q, (∀ p' ∈ p :: paths, q ≠ resolve (join [absDir, p'])) →
              Os.content fs' q = Os.content w.fs q) { w with fs := fs₁ } := by
      refine ⟨hI fs₁ fun q hq => h₁ q (hq p List.mem_cons_self), ?_⟩
      have hgo (fs' : Os.Fs) (h : ∀ q, (∀ p' ∈ paths, q ≠ resolve (join [absDir, p'])) →
          Os.content fs' q = Os.content fs₁ q) (q : List Bytes)
          (hq : ∀ p' ∈ p :: paths, q ≠ resolve (join [absDir, p'])) :
          Os.content fs' q = Os.content w.fs q := by
        rw [List.forall_mem_cons] at hq
        exact (h q hq.2).trans (h₁ q hq.1)
      refine Prog.wp_mono (ih (w := { w with fs := fs₁ }) fun fs' h => hI fs' (hgo fs' h)) ?_
      rintro _ _ ⟨fs', rfl, h⟩
      exact ⟨fs', rfl, hgo fs' h⟩
    exact wp_change (fun e he => hrest fun _ _ => rfl) fun fs₁ h₁ => hrest (Os.content_remove h₁)

/-- The manifest has no node at the path, which is visible. -/
def Absent (absDir : Bytes) (root : ManifestNode) (path : Bytes) : Prop :=
  ∃ s, Visible s ∧ resolve (join [absDir, path]) = resolve absDir ++ s ∧ ∀ m, ¬ root.At s m

/-- What is deleted is absent from the manifest. -/
theorem absent_of_deleted (habs : isAbs absDir) {ord : Diff.DiffOrder} {here root : ManifestNode}
    (hhere : Advertised here) (hroot : root.Orderly) {path : Bytes}
    (h : path ∈ (Diff.diffNode ord [] here root []).deleted) : Absent absDir root path := by
  obtain ⟨s, n, hs, rfl, hno, -⟩ :=
    (Diff.mem_deleted_iff hhere.orderly hroot.distinct (List.forall_mem_nil Plain)).1 h
  rw [List.nil_append]
  exact ⟨s, hhere.visible hs, resolve_join_relative habs (hhere.orderly.plain_of_at hs), hno⟩

/-- The reconstruction of a manifest from a sound store writes its files. -/
theorem wp_reconstruct (habs : isAbs absDir) {root : ManifestNode} (hroot : Advertised root)
    (hsound : (storeOf absDir).Sound w.fs) :
    Prog.wp (handle answer) (fun w => (storeOf absDir).Sound w.fs)
      (reconstructFiles absDir (some root) (storeOf absDir)) (fun r w' =>
        (storeOf absDir).Sound w'.fs ∧ (r.2 = none → Written absDir root w'.fs)) w := by
  have hsep : ∀ v ∈ visits (some root), v.Writes → ∀ hash,
      (storeOf absDir).place hash ≠ v.target absDir := by
    intro v hv _ hash
    obtain ⟨s, -, hs, htarget⟩ := at_of_mem_visits habs hroot.orderly hv
    rw [htarget]
    exact place_ne_visible habs (hroot.visible hs) hash
  have hkeep {fs' : Os.Fs} (h : ∀ hash, (storeOf absDir).blob fs' hash =
      (storeOf absDir).blob w.fs hash) : (storeOf absDir).Sound fs' :=
    fun hash c hc => hsound hash c (h hash ▸ hc)
  refine wp_reconstructFiles (Q := fun r w' => (storeOf absDir).Sound w'.fs ∧
    (r = none → Written absDir root w'.fs)) (Prog.wp_mono (visitAll_spec habs
      (isAbs_storageDir habs) hsep fun fs' h => hkeep h) ?_)
  rintro r _ ⟨fs', rfl, helse, hlast⟩
  refine ⟨hkeep fun hash => helse _ fun v hv hvw => hsep v hv hvw hash, ?_⟩
  intro hr q n hn hfile hne
  have hq : q ≠ [] := by
    rintro rfl
    obtain rfl := Proto.ManifestNode.at_nil.1 hn
    simp [hroot.isDir] at hfile
  obtain ⟨v, hv, rfl, htarget⟩ := exists_visit habs hroot.orderly hq hn
  obtain ⟨u, hu, huw, hut, hdone, hcont⟩ := hlast hr v hv ⟨hfile, hne⟩
  -- Another visit of the path is of the same node.
  obtain ⟨s, -, hs, hus⟩ := at_of_mem_visits habs hroot.orderly hu
  obtain rfl : s = q := List.append_cancel_left (hus.symm.trans (hut.trans htarget))
  rw [hroot.orderly.at_unique hs hn] at hdone hcont
  exact ⟨_, htarget ▸ hcont, pieces_assembled hsound hdone⟩

theorem applyDiff_spec (habs : isAbs absDir) {root : ManifestNode} (hroot : Advertised root)
    {diff : Diff.DiffResult} (hdel : ∀ p ∈ diff.deleted, Absent absDir root p)
    (hbase : (storeOf absDir).Holds w.fs []) (hsound : (storeOf absDir).Sound w.fs) :
    Prog.wp (handle answer) (fun w => (storeOf absDir).Sound w.fs)
      (applyDiff absDir (storeOf absDir) root diff)
      (fun r w' => ∀ n, r = .ok n → Written absDir root w'.fs) w := by
  have hs := isAbs_storageDir habs
  refine Prog.wp_bind.2
    (Prog.wp_mono (keeps_collectMissingBelow (N := fun _ => True) diff.added w hbase hsound
      trivial) ?_)
  rintro added w₁ ⟨hbase₁, hsound₁, -⟩
  refine Prog.wp_bind.2
    (Prog.wp_mono (keeps_collectMissingBelow (N := fun _ => True) diff.modified w₁ hbase₁ hsound₁
      trivial) ?_)
  rintro modified w₂ ⟨hbase₂, hsound₂, -⟩
  refine Prog.wp_bind.2 (Prog.wp_mono (keeps_download (N := fun _ => True) hs
    (fun _ _ h => h) _ 0 w₂ hbase₂ hsound₂ trivial) ?_)
  rintro ⟨n, _ | e⟩ w₃ ⟨-, hsound₃, -⟩
  · refine Prog.wp_bind.2 (Prog.wp_mono (wp_reconstruct habs hroot hsound₃) ?_)
    rintro ⟨k, _ | fault⟩ w₄ ⟨hsound₄, hwritten⟩
    · have hkeep {fs' : Os.Fs} (h : ∀ q, (∀ p ∈ diff.deleted, q ≠ resolve (join [absDir, p])) →
          Os.content fs' q = Os.content w₄.fs q) : (storeOf absDir).Sound fs' := by
        refine fun hash c hc => hsound₄ hash c ((h _ fun p hp heq => ?_).symm.trans hc)
        obtain ⟨s, hvis, hres, -⟩ := hdel p hp
        exact place_ne_visible habs hvis hash (heq.trans hres)
      refine Prog.wp_bind.2 (Prog.wp_mono (deleteAll_spec fun fs' h => hkeep h) ?_)
      rintro _ _ ⟨fs', rfl, helse⟩ _ - q m hm hfile hne
      obtain ⟨c, hc, hpieces⟩ := hwritten rfl q m hm hfile hne
      refine ⟨c, (helse _ fun p hp heq => ?_).trans hc, hpieces⟩
      obtain ⟨s, -, hres, hno⟩ := hdel p hp
      obtain rfl := List.append_cancel_left (heq.trans hres)
      exact hno m hm
    · cases fault <;> exact fun _ h => nomatch h
  · exact fun _ h => nomatch h

/-- The root of the manifest that a peer in state `n` answers with. -/
def servedRoot (answer : Request → ν → Exchange × ν) (n : ν) : Option ManifestNode :=
  match manifestReply (answer .manifest n).1 with
  | .error _ => none
  | .ok manifest => manifest.root

theorem wp_openStore (habs : isAbs absDir) (hsound : (storeOf absDir).Sound w.fs) :
    Prog.wp (handle answer) (fun w => (storeOf absDir).Sound w.fs)
      (newBlobStore (storageDir absDir)) (fun r w' => ∀ s, r = .ok s → s = storeOf absDir ∧
        (storeOf absDir).Holds w'.fs [] ∧ (storeOf absDir).Sound w'.fs ∧ w'.net = w.net) w := by
  have hkeep {fs' : Os.Fs} (h : ∀ q, Os.content fs' q = Os.content w.fs q) :
      (storeOf absDir).Sound fs' := fun hash c hc => hsound hash c ((h _).symm.trans hc)
  refine BlobStore.wp_newBlobStore ?_ (fun fs' h => hkeep h) (fun fs' h hbase s hr => ?_)
    (fun e s hr => nomatch hr)
  · intro h
    have := isAbs_storageDir habs
    simp [h, isAbs] at this
  · exact ⟨(Except.ok.inj hr).symm, hbase, hkeep h, rfl⟩

/-- **Integrity of a sync.**  For every peer whose manifest is that of a directory, whatever it
answers to the requests for chunks: a sound store is sound after every call of the command, and if
the command completes, the file of every node with chunks is made of pieces with their hashes. -/
theorem sync_integrity (ord : Diff.DiffOrder) (dial : Except (DialStep × Err) Net.Peer)
    (habs : isAbs absDir) (hwf : w.fs.WF)
    (hserved : ∀ root, servedRoot answer w.net = some root → Advertised root)
    (hsound : (storeOf absDir).Sound w.fs) :
    Prog.wp (handle answer) (fun w => (storeOf absDir).Sound w.fs) (syncCmd ord dial absDir)
      (fun r w' => ∀ n, r = .ok (.complete n) →
        ∃ root, servedRoot answer w.net = some root ∧ Written absDir root w'.fs) w := by
  refine wp_stat.2 ⟨hsound, ?_⟩
  split
  · exact fun _ h => nomatch h
  refine Prog.wp_bind.2 (Prog.wp_mono (wp_wf (wp_openStore habs hsound) hwf) ?_)
  rintro (e | store) w₁ ⟨hopen, hwf₁⟩
  · exact fun _ h => nomatch h
  obtain ⟨rfl, hbase₁, hsound₁, hnet₁⟩ := hopen store rfl
  refine Prog.wp_bind.2 (Prog.wp_mono (wp_wf (keeps_indexDirectory (N := (· = w.net))
    (isAbs_storageDir habs) absDir w₁ hbase₁ hsound₁ hnet₁) hwf₁) ?_)
  rintro counts w₂ ⟨⟨hbase₂, hsound₂, hnet₂⟩, hwf₂⟩
  refine Prog.wp_bind.2 (Merkle.wp_buildFromFS hsound₂ (fun m es hreach => ?_)
    fun _ e _ h => nomatch h)
  have hlocal := advertised_of_reach w₂.fs absDir hwf₂ hreach
  rcases dial with ⟨_ | _, e⟩ | peer
  · exact fun _ h => nomatch h
  · exact fun _ h => nomatch h
  dsimp only
  split
  · exact fun _ h => nomatch h
  refine wp_exchange.2 ⟨hsound₂, ?_⟩
  rw [hnet₂]
  unfold servedRoot at hserved ⊢
  cases hreply : manifestReply (answer .manifest w.net).1 with
  | error e => exact fun _ h => nomatch h
  | ok manifest =>
    rw [hreply] at hserved
    cases hroot : manifest.root with
    | none =>
      dsimp only
      rw [hroot]
      exact fun _ h => nomatch h
    | some root =>
      have hadv := hserved root hroot
      dsimp only
      rw [hroot]
      refine Prog.wp_bind.2 (Prog.wp_mono (applyDiff_spec habs hadv
        (fun p hp => absent_of_deleted habs hlocal hadv.orderly hp) hbase₂ hsound₂) ?_)
      rintro (fault | k) w₃ hwritten
      · exact fun _ h => nomatch h
      · exact fun _ _ => ⟨root, rfl, hwritten k rfl⟩

end Integrity

/-- A directory with one file `a`. -/
def peerEntry : Os.Entry := .dir 0o755 [([97], .file 0o644 [7])]

/-- A directory `/d` with a file `b` and an empty store, and a peer that has a file `a` and sends
its chunk under another hash, after a chunk that was not asked for. -/
def syncWorld : World (List Exchange) where
  fs := some (.dir 0o755 [([100], .dir 0o755 [([98], .file 0o644 [1, 2]),
    ([46, 115, 116, 111, 114, 97, 103, 101], .dir 0o700 [([99, 104, 117, 110, 107, 115],
      .dir 0o700 [])])])])
  umask := 0o022
  net :=
    [.ok ⟨.manifestResponse,
        .ok ⟨some (convertTreeToManifest (Merkle.buildNode [47] peerEntry))⟩, .error .eof⟩,
      .ok ⟨.chunkResponse, .error .eof, .ok ⟨[⟨[], [9], 1⟩, ⟨[0], [7], 1⟩], []⟩⟩]

theorem wf_peerEntry : peerEntry.WF :=
  .dir _ (by decide) (by decide) (List.forall_mem_cons.2 ⟨.file _ _, by simp⟩)

theorem wf_syncWorld : syncWorld.fs.WF := by
  refine Os.wf_some.2 (.dir _ (by decide) (by decide) (List.forall_mem_cons.2 ⟨?_, by simp⟩))
  refine .dir _ (by decide) (by decide) (List.forall_mem_cons.2 ⟨.file _ _,
    List.forall_mem_cons.2 ⟨?_, by simp⟩⟩)
  exact .dir _ (by decide) (by decide) (List.forall_mem_cons.2
    ⟨.dir _ (by decide) (by decide) (by simp), by simp⟩)

/-- The sync with that peer completes with one file. -/
theorem sync_integrity_new_file :
    ((syncCmd (.listed _ _) (.ok ⟨[], none⟩) [47, 100]).run (handle scripted) syncWorld).1 =
        .ok (.complete 1) ∧
      Prog.wp (handle scripted) (fun w => (storeOf [47, 100]).Sound w.fs)
        (syncCmd (.listed _ _) (.ok ⟨[], none⟩) [47, 100]) (fun r w' => ∀ n,
          r = .ok (.complete n) → ∃ root, servedRoot scripted syncWorld.net = some root ∧
            Written [47, 100] root w'.fs) syncWorld := by
  refine ⟨by decide +kernel, sync_integrity _ _ (by decide) wf_syncWorld (fun root hroot => ?_) ?_⟩
  · obtain rfl := Option.some.inj hroot
    exact advertised_of_reach (some peerEntry) [47] (Os.wf_some.2 wf_peerEntry) rfl
  · refine (BlobStore.ready_and_sound_of_empty (m := 0o700) (by decide) ?_).2
    rw [resolve_storageDir (by decide)]
    rfl

end FileSync.Cli
