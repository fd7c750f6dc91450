import FileSync.Cli.Sync

/-!
# Cli — slice expressions

The command prints the first eight bytes of what the peer has sent: of the root in its handshake,
and of the hash of a chunk that is missing when a file is written.  An expression `x[:8]` may reach
beyond the bytes of `x`, to the end of their room, and panics where that is less than eight.

* `Sends x` admits every answer of the system and every response with chunks, and the one reply `x`
  to the request for the manifest.
* `ensures_visitAll`: what can come of the visits, by the hashes of the files that are written.
* `sync_in_range_iff`: under any such answers the command does not panic, exactly if there is room
  for eight bytes at the peer's root and at every hash of a file that `reconstructFiles` visits.
  The empty hash has no room, and no chunk is ever found under it.
* `batches_eq`: the third slice of the command, `neededChunks[i:end]`, is in range for any list.
-/

open Filepath

namespace FileSync.Cli

open Proto (ManifestNode ManifestResponse Request Exchange)
open Cas (BlobStore Chunk)
open Merkle (Tree)

/-! ### The batches -/

/-- The loop that cuts the batches, from `i` on. -/
def batchesFrom (neededChunks : List Bytes) (i : ℕ) : Go (List (List Bytes)) :=
  if i < neededChunks.length then do
    let stop := min (i + batchSize) neededChunks.length
    let batch ← Go.orPanic (slice neededChunks i stop)
    let batches ← batchesFrom neededChunks (i + batchSize)
    return batch :: batches
  else return []
termination_by neededChunks.length - i
decreasing_by
  rw [batchSize]
  omega

theorem batchesFrom_eq (neededChunks : List Bytes) (i : ℕ) :
    batchesFrom neededChunks i = .ok (Blocks.blocks batchSize (neededChunks.drop i)) := by
  fun_induction batchesFrom neededChunks i with
  | case1 i hlt stop ih =>
    have hne : neededChunks.drop i ≠ [] := by
      rw [Ne, List.drop_eq_nil_iff]
      exact hlt.not_ge
    have hcut : (neededChunks.take stop).drop i = (neededChunks.drop i).take batchSize := by
      rw [List.drop_take, List.take_eq_take_iff, List.length_drop]
      omega
    have hslice : slice neededChunks i stop = some ((neededChunks.drop i).take batchSize) := by
      rw [slice_natCast _ (by omega) (min_le_right _ _), hcut]
    rw [hslice, ih, Blocks.blocks_of_ne_nil (by decide) hne, List.drop_drop]
    rfl
  | case2 i hge =>
    rw [List.drop_eq_nil_of_le (not_lt.1 hge)]
    rfl

/-- **The batches are in range.** -/
theorem batches_eq (neededChunks : List Bytes) :
    batchesFrom neededChunks 0 = .ok (Blocks.blocks batchSize neededChunks) :=
  batchesFrom_eq neededChunks 0

/-! ### What the answers can bring about -/

/-- The peer's reply to the request for the manifest is `x`; nothing else is known. -/
def Sends (x : Exchange) : (o : Op) → o.Resp → Prop
  | .exchange .manifest, r => r = x
  | _, _ => True

section Answers

variable {x : Exchange} {store : BlobStore} {α : Type}

theorem exists_sends (x : Exchange) (o : Op) : ∃ r, Sends x o r := by
  cases o with
  | exchange req =>
    cases req with
    | manifest => exact ⟨x, rfl⟩
    | chunks hashes => exact ⟨x, trivial⟩
  | stat path => exact ⟨.error .notExist, trivial⟩
  | openRead path => exact ⟨.error .notExist, trivial⟩
  | readAll path => exact ⟨.error .notExist, trivial⟩
  | readTree path => exact ⟨.error .notExist, trivial⟩
  | walkTree path => exact ⟨.error .notExist, trivial⟩
  | change c => exact ⟨.error .notExist, trivial⟩

/-- A change whose failure does no harm. -/
theorem ensures_change {c : Change} {f : Except Errno Unit → Cmd α} {Q : α → Prop}
    (herr : ∀ e, Prog.Ensures (Sends x) (f (.error e)) Q) :
    Prog.Ensures (Sends x) (Sys.change c >>= f) Q ↔ Prog.Ensures (Sends x) (f (.ok ())) Q := by
  constructor
  · exact fun h => h (.ok ()) trivial
  · rintro hok (e | _) -
    · exact herr e
    · exact hok

theorem ensures_requestManifest {f : Except Err ManifestResponse → Cmd α} {Q : α → Prop} :
    Prog.Ensures (Sends x) (requestManifest >>= f) Q ↔
      Prog.Ensures (Sends x) (f (manifestReply x)) Q := forall_eq

/-- A chunk can be missing, or have any data. -/
theorem ensures_get {hash : Bytes} {P : Prop} {Q : Except Err Chunk → Prop}
    (hP : ∀ e, Q (.error e) ↔ P) :
    Prog.Ensures (Sends x) (store.get hash) Q ↔
      P ∧ ∀ data, Q (.ok ⟨hash, UInt32.ofNat data.length, data⟩) := by
  constructor
  · exact fun h => ⟨(hP _).1 (h (.error .notExist) trivial),
      fun data => h (.ok ()) trivial (.ok data) trivial⟩
  · rintro ⟨hp, hok⟩ (e | _) -
    · cases e <;> exact (hP _).2 hp
    · rintro (e | data) -
      · exact (hP _).2 hp
      · exact hok data

end Answers

/-! ### The visits -/

section Visits

variable [Allocator] {x : Exchange} {store : BlobStore} {baseDir : Bytes}

/-- There is room for the eight bytes that are printed. -/
def InRange (bytes : Bytes) : Prop := 8 ≤ Allocator.cap bytes.length

variable {Q : Option Fault → Prop} (herr : ∀ e, Q (some (.err e)))

include herr

theorem missingChunk_iff (hash : Bytes) (e : Err) :
    Q (some (missingChunk hash e)) ↔ InRange hash ∨ Q (some .panic) := by
  by_cases hr : InRange hash
  · have hfront : front hash 8 = some _ := if_pos hr
    rw [missingChunk, hfront]
    exact iff_of_true (herr _) (Or.inl hr)
  · have hfront : front hash 8 = none := if_neg hr
    rw [missingChunk, hfront, or_iff_right hr]

/-- The chunks can all be there, and any of them can be missing. -/
theorem ensures_writeChunks (path : Bytes) (hashes : List Bytes) :
    Prog.Ensures (Sends x) (writeChunks store path hashes) Q ↔
      Q none ∧ ∀ hash ∈ hashes, InRange hash ∨ Q (some .panic) := by
  induction hashes with
  | nil => exact (and_iff_left (List.forall_mem_nil _)).symm
  | cons hash hashes ih =>
    rw [writeChunks, Prog.ensures_bind, ensures_get fun e => missingChunk_iff herr hash e,
      List.forall_mem_cons, and_left_comm]
    refine and_congr_right fun _ => (forall_congr' fun data => ?_).trans (forall_const Bytes)
    refine (ensures_change ?_).trans ih
    exact fun e => herr _

theorem ensures_reconstructFile (path : Bytes) {node : ManifestNode} (hne : node.chunks ≠ []) :
    Prog.Ensures (Sends x) (reconstructFile store path node) (fun r => Q r.2) ↔
      Q none ∧ ∀ hash ∈ node.chunks, InRange hash ∨ Q (some .panic) := by
  rw [reconstructFile, if_neg hne]
  refine (ensures_change ?_).trans ((ensures_change ?_).trans ?_)
  · exact fun e => herr _
  · exact fun e => herr _
  rw [← ensures_writeChunks herr path]
  refine Prog.ensures_bind.trans (Prog.ensures_congr fun r => ?_)
  cases r with
  | some fault => rfl
  | none =>
    dsimp only
    split
    · exact Prog.ensures_bind.trans (Prog.ensures_const (exists_sends x))
    · rfl

/-- What can come of a visit. -/
theorem ensures_visit (v : Visit) :
    Prog.Ensures (Sends x) (visit baseDir store v) Q ↔
      Q none ∧ (v.Writes → ∀ hash ∈ v.node.chunks, InRange hash ∨ Q (some .panic)) := by
  unfold visit
  split
  · next hdir =>
      have hw : ¬ v.Writes := fun h => by simp [h.1] at hdir
      refine (ensures_change ?_).trans (and_iff_left fun h => (hw h).elim).symm
      exact fun e => herr _
  · next hdir =>
      rw [Prog.ensures_bind]
      by_cases hne : v.node.chunks = []
      · rw [reconstructFile, if_pos hne]
        exact (and_iff_left fun h => (h.2 hne).elim).symm
      · have hw : v.Writes := ⟨by simpa using hdir, hne⟩
        rw [forall_prop_of_true hw]
        exact ensures_reconstructFile herr _ hne

/-- **What can come of the visits.** -/
theorem ensures_visitAll (vs : List Visit) :
    Prog.Ensures (Sends x) (visitAll baseDir store vs) Q ↔
      Q none ∧ ∀ v ∈ vs, v.Writes → ∀ hash ∈ v.node.chunks, InRange hash ∨ Q (some .panic) := by
  induction vs with
  | nil => exact (and_iff_left (List.forall_mem_nil _)).symm
  | cons v vs ih =>
    rw [visitAll, Prog.ensures_bind, List.forall_mem_cons, and_left_comm, ← ih, and_comm]
    refine ensures_visit ?_ v
    exact fun e => herr e

theorem ensures_reconstructFiles (node : Option ManifestNode) :
    Prog.Ensures (Sends x) (reconstructFiles baseDir node store) (fun r => Q r.2) ↔
      Q none ∧ ∀ v ∈ visits node, v.Writes → ∀ hash ∈ v.node.chunks,
        InRange hash ∨ Q (some .panic) := by
  rw [← ensures_visitAll herr, ← reconstructFiles_eq, Prog.ensures_bind]
  rfl

end Visits

/-! ### The command -/

/-- The download can complete, whatever is asked for. -/
theorem ensures_download {x : Exchange} {store : BlobStore} {P : Prop} {Q : ℕ × Option Err → Prop}
    (herr : ∀ n e, Q (n, some e)) (hok : ∀ n, Q (n, none) ↔ P) (batches : List (List Bytes))
    (n : ℕ) : Prog.Ensures (Sends x) (download store batches n) Q ↔ P := by
  induction batches generalizing n with
  | nil => exact hok n
  | cons batch batches ih =>
    have hrest (resp : Proto.ChunkResponse) : Prog.Ensures (Sends x)
        (storeChunks store resp.chunks n >>= download store batches) Q ↔ P := by
      rw [Prog.ensures_bind]
      simp only [ih]
      exact Prog.ensures_const (exists_sends x)
    constructor
    · intro h
      exact (hrest ⟨[], []⟩).1 (h (.ok ⟨.chunkResponse, .error .eof, .ok ⟨[], []⟩⟩) trivial)
    · intro hp r _
      simp only [Prog.bind, Prog.pure_eq]
      cases Net.chunkReply r with
      | error e => exact herr n _
      | ok resp => exact (hrest resp).2 hp

section Command

variable [Allocator] {x : Exchange} {absDir : Bytes}

/-- There is room where the command slices what the peer has sent. -/
structure Printable (peer : Net.Peer) (x : Exchange) : Prop where
  root : ∀ root ∈ peer.merkleRoot, InRange root
  chunks : ∀ m, manifestReply x = .ok m → ∀ v ∈ visits m.root, v.Writes →
    ∀ hash ∈ v.node.chunks, InRange hash

/-- What follows the comparison can come to every hash of the files that are written. -/
theorem ensures_applyDiff (store : BlobStore) (root : ManifestNode) (diff : Diff.DiffResult) :
    Prog.Ensures (Sends x) (applyDiff absDir store root diff) (fun r => r ≠ .error .panic) ↔
      ∀ v ∈ visits (some root), v.Writes → ∀ hash ∈ v.node.chunks, InRange hash := by
  have hvisits : Prog.Ensures (Sends x) (reconstructFiles absDir (some root) store)
      (fun r => r.2 ≠ some .panic) ↔
        ∀ v ∈ visits (some root), v.Writes → ∀ hash ∈ v.node.chunks, InRange hash := by
    rw [ensures_reconstructFiles (Q := fun r => r ≠ some .panic) fun e h => nomatch h]
    simp
  rw [applyDiff, Prog.ensures_bind, ← hvisits]
  refine (Prog.ensures_congr fun added => ?_).trans (Prog.ensures_const (exists_sends x))
  refine Prog.ensures_bind.trans
    ((Prog.ensures_congr fun modified => ?_).trans (Prog.ensures_const (exists_sends x)))
  refine Prog.ensures_bind.trans (ensures_download ?_ (fun n => ?_) _ 0)
  · exact fun n e h => nomatch h
  refine Prog.ensures_bind.trans (Prog.ensures_congr fun r => ?_)
  obtain ⟨n, _ | ⟨e⟩ | _ | _⟩ := r
  · refine iff_of_true (Prog.ensures_bind.2 (Prog.ensures_of_forall fun _ h => nomatch h)) ?_
    exact fun h => nomatch h
  · exact iff_of_true (fun h => nomatch h) (fun h => nomatch h)
  · exact iff_of_false (fun h => h rfl) (fun h => h rfl)
  · exact iff_of_true (fun h => nomatch h) (fun h => nomatch h)

/-- The command from where it is connected on. -/
def syncWith (ord : Diff.DiffOrder) (absDir : Bytes) (store : BlobStore) (localTree : Tree)
    (peer : Net.Peer) : Cmd (Go Synced) :=
  match printsRoots localTree peer with
  | .error fault => return .error fault
  | .ok () => do
  match ← requestManifest with
  | .error e => return .error (.err (.wrap "requesting manifest" e))
  | .ok manifest =>
  match manifest.root with
  | none => return .ok .noRemoteFiles
  | some root =>
  match Diff.diffTrees ord (localTree.root.map convertTreeToManifest) (some root) with
  | .error fault => return .error fault
  | .ok diff =>
  match ← applyDiff absDir store root diff with
  | .error fault => return .error fault
  | .ok filesWritten => return .ok (.complete filesWritten)

theorem printsRoots_panic {n : Merkle.Node} {peer : Net.Peer} (hn : 8 ≤ n.hash.length)
    {root : Bytes} (hroot : root ∈ peer.merkleRoot) (hr : ¬ InRange root) :
    printsRoots ⟨some n⟩ peer = .error .panic := by
  obtain ⟨start, hstart⟩ := exists_front hn
  have hfront : front root 8 = none := if_neg hr
  rw [printsRoots, Option.mem_def.1 hroot]
  dsimp only
  rw [hstart, hfront]
  rfl

theorem ensures_syncWith {ord : Diff.DiffOrder} {store : BlobStore} {node : Merkle.Node}
    {peer : Net.Peer} (hn : 8 ≤ node.hash.length) :
    Prog.Ensures (Sends x) (syncWith ord absDir store ⟨some node⟩ peer)
      (fun r => r ≠ .error .panic) ↔ Printable peer x := by
  by_cases hroot : ∀ root ∈ peer.merkleRoot, InRange root
  · rw [syncWith, printsRoots_ok hn hroot, ensures_requestManifest]
    cases hx : manifestReply x with
    | error e =>
      refine iff_of_true (fun h => ?_) ⟨hroot, fun m hm => ?_⟩
      · cases h
      · exact nomatch hx.symm.trans hm
    | ok m =>
      have hprintable : Printable peer x ↔
          ∀ v ∈ visits m.root, v.Writes → ∀ hash ∈ v.node.chunks, InRange hash := by
        refine ⟨fun h => h.chunks m hx, fun h => ⟨hroot, fun m' hm' => ?_⟩⟩
        obtain rfl := Except.ok.inj (hx.symm.trans hm')
        exact h
      rw [hprintable]
      dsimp only
      cases m.root with
      | none => exact iff_of_true (fun h => nomatch h) (List.forall_mem_nil _)
      | some root =>
        rw [← ensures_applyDiff]
        refine Prog.ensures_bind.trans (Prog.ensures_congr fun r => ?_)
        rcases r with fault | n
        · exact not_congr (by simp)
        · exact iff_of_true (fun h => nomatch h) (fun h => nomatch h)
  · refine iff_of_false (fun h => ?_) (fun h => hroot h.root)
    push Not at hroot
    obtain ⟨root, hmem, hr⟩ := hroot
    rw [syncWith, printsRoots_panic hn hmem hr] at h
    exact h rfl

/-- Where there is room, no answers make the command panic. -/
theorem ensures_syncCmd {ord : Diff.DiffOrder} {dial : Except (DialStep × Err) Net.Peer}
    (h : ∀ peer, dial = .ok peer → Printable peer x) :
    Prog.Ensures (Sends x) (syncCmd ord dial absDir) (fun r => r ≠ .error .panic) := by
  -- Of what comes before, only the tree that is built matters.
  refine Prog.ensures_bind.2 (Prog.ensures_of_forall fun r => ?_)
  split
  · exact fun h => nomatch h
  refine Prog.ensures_bind.2 (Prog.ensures_of_forall fun r => ?_)
  rcases r with e | store
  · exact fun h => nomatch h
  refine Prog.ensures_bind.2 (Prog.ensures_of_forall fun _ => ?_)
  rintro (e | ⟨m, c⟩ | ⟨m, es⟩) -
  · exact fun h => nomatch h
  · exact fun h => nomatch h
  rcases dial with ⟨_ | _, e⟩ | peer
  · exact fun h => nomatch h
  · exact fun h => nomatch h
  · exact (ensures_syncWith (le_length_hash_root absDir m es)).2 (h peer rfl)

/-- So in every run against the file system. -/
theorem run_syncCmd_ne_panic {ν : Type} {answer : Request → ν → Exchange × ν} {w : World ν}
    (ord : Diff.DiffOrder) {dial : Except (DialStep × Err) Net.Peer}
    (hx : ∀ n, (answer .manifest n).1 = x) (h : ∀ peer, dial = .ok peer → Printable peer x) :
    ((syncCmd ord dial absDir).run (handle answer) w).1 ≠ .error .panic := by
  refine Prog.run_ensures (ensures_syncCmd h) (fun o s => ?_) w
  cases o with
  | exchange req =>
    cases req with
    | manifest => exact hx s.net
    | chunks hashes => trivial
  | _ => trivial

/-- **The command never slices out of range**, whatever the system answers and whatever chunks
arrive, exactly if there is room in what the peer announces and in the hashes of its manifest. -/
theorem sync_in_range_iff (ord : Diff.DiffOrder) (dial : Except (DialStep × Err) Net.Peer)
    (absDir : Bytes) (x : Exchange) :
    Prog.Ensures (Sends x) (syncCmd ord dial absDir) (fun r => r ≠ .error .panic) ↔
      ∀ peer, dial = .ok peer → Printable peer x := by
  refine ⟨?_, ensures_syncCmd⟩
  rintro h peer rfl
  -- The store and the directory are there, and the directory is empty.
  exact (ensures_syncWith (le_length_hash_root absDir 0 [])).1 (h (.ok (.dir 0 [])) trivial
    (.ok ()) trivial (.error .notExist) trivial (.ok (.dir 0 [])) trivial)

end Command

/-- A peer whose manifest has a file with a chunk of the empty hash. -/
def emptyHashWorld : World (List Exchange) where
  fs := syncWorld.fs
  umask := 0o022
  net := [.ok ⟨.manifestResponse, .ok ⟨some (.directory [47] [5] [.file [97] [4] [[]]])⟩,
    .error .eof⟩]

/-- At the place of the empty hash is the store's own directory, which is not missing and cannot be
read. -/
theorem empty_hash_panics :
    ((syncCmd (.listed _ _) (.ok ⟨[], none⟩) [47, 100]).run (handle scripted) emptyHashWorld).1 =
      .error .panic := by
  decide +kernel

end FileSync.Cli
