import FileSync.Cli.Mirror

/-!
# Cli — from `init` to the first sync

`init` makes the store of a directory, `serve` starts the daemon, and `sync` in another directory
gets its files (`cmd/p2p-file-sync/main.go`).

* `run_initCmd`: a directory that was initialised can be served, and looks as before.
* `run_serveCmd`: the daemon starts, with the store that `init` made.
* `first_sync_mirrors_iff`: the first sync into an empty directory mirrors the daemon's directory if
  that has no empty file.
-/

open Sha256 Filepath

namespace FileSync.Cli

open Proto (ManifestNode Request Exchange)
open Cas (BlobStore newBlobStore)
open Merkle (Visible Tree buildNode)
open Os (IsDir Childless)

/-- `initCmd`, in the directory `absDir`. -/
def initCmd (absDir : Bytes) : Cmd (Except Err Unit) := do
  match ← Sys.mkdirAll (storageDir absDir) 0o755 with
  | .error e => return .error (.wrap "creating storage directory" (.errno e))
  | .ok () => return .ok ()

/-- A directory before `init`. -/
structure Untouched (absDir : Bytes) (fs : Os.Fs) : Prop where
  abs : isAbs absDir
  shown : Merkle.hidden (base absDir) = false
  wf : fs.WF
  dir : IsDir fs (resolve absDir)
  store : Os.view fs (resolve absDir ++ [[46, 115, 116, 111, 114, 97, 103, 101]]) = none

/-- A directory that nothing stands in has no entries. -/
theorem eq_nil_of_childless {fs : Os.Fs} {p : List Bytes} {m : UInt32}
    {es : List (Bytes × Os.Entry)} (h : Os.reach fs p = some (.dir m es)) (hbare : Childless fs p) :
    es = [] := by
  cases es with
  | nil => rfl
  | cons x es =>
    have hx := hbare x.1
    rw [Os.view, Os.reach_append, h] at hx
    simp [Os.reach] at hx

section Init

variable {ν : Type} {answer : Request → ν → Exchange × ν} {w : World ν} {absDir : Bytes}

/-- Nothing is below the name under which `init` makes the store. -/
theorem Untouched.vacant {fs : Os.Fs} (h : Untouched absDir fs) (r : List Bytes) :
    Os.view fs (resolve absDir ++ [46, 115, 116, 111, 114, 97, 103, 101] :: r) = none := by
  have hnone : Os.reach fs (resolve absDir ++ [[46, 115, 116, 111, 114, 97, 103, 101]]) = none :=
    Option.map_eq_none_iff.1 h.store
  rw [List.append_cons, Os.view, Os.reach_append, hnone, Os.reach_none]
  rfl

theorem Untouched.noFile {fs : Os.Fs} (h : Untouched absDir fs) :
    Os.NoFile fs (resolve (storageDir absDir)) := by
  intro q hq m c hview
  rw [resolve_storageDir h.abs] at hq
  rcases List.prefix_or_prefix_of_prefix hq (List.prefix_append _ storageNames) with hq | ⟨t, rfl⟩
  · obtain ⟨m', hm'⟩ := isDir_above h.dir hq
    rw [hm'] at hview
    cases hview
  · rw [List.prefix_append_right_inj, storageNames, List.prefix_cons_iff] at hq
    rcases hq with rfl | ⟨t, rfl, -⟩
    · obtain ⟨m', hm'⟩ := h.dir
      rw [List.append_nil, hm'] at hview
      cases hview
    · rw [h.vacant] at hview
      cases hview

variable (answer) in
/-- **`init` makes a directory ready to be served**, and nothing that is seen of it changes. -/
theorem run_initCmd (h : Untouched absDir w.fs) : ∃ fs',
    (initCmd absDir).run (handle answer) w = (.ok (), { w with fs := fs' }) ∧ Home absDir fs' ∧
      ∀ q, Visible q → Os.view fs' (resolve absDir ++ q) = Os.view w.fs (resolve absDir ++ q) := by
  have hplace (r : List Bytes) : Os.view w.fs (resolve (storageDir absDir) ++ r) = none := by
    rw [resolve_storageDir h.abs, List.append_assoc, storageNames, List.cons_append, h.vacant]
  have hvac := hplace []
  rw [List.append_nil] at hvac
  have hstat : Os.stat w.fs (resolve (storageDir absDir)) = .error .notExist := by
    rcases Os.stat_of_vacant hvac with ⟨hstat, -⟩ | ⟨-, hno⟩
    · exact hstat
    · exact (hno h.noFile).elim
  obtain ⟨fs', hok⟩ : ∃ fs', (Change.mkdirAll (storageDir absDir) 0o755).apply w.fs w.umask =
      .ok fs' := by
    rw [Change.apply, Os.mkdirAll, hstat]
    exact ⟨_, rfl⟩
  have hview := (Os.mkdirAll_ok hok).2
  have hempty : ∃ m, Os.reach fs' (resolve (storageDir absDir)) = some (.dir m []) := by
    have hdir : Os.view fs' (resolve (storageDir absDir)) = some (.dir (perm w.umask 0o755)) := by
      rw [hview, if_pos ⟨List.prefix_refl _, hvac⟩]
    obtain ⟨es, hes⟩ := Os.stat_of_view_dir hdir
    have hbare : Childless fs' (resolve (storageDir absDir)) := by
      intro c
      rw [hview, if_neg, hplace]
      rintro ⟨hpre, -⟩
      have hlen := hpre.length_le
      rw [List.length_append, List.length_singleton] at hlen
      omega
    exact ⟨_, eq_nil_of_childless (Os.stat_ok.1 hes) hbare ▸ Os.stat_ok.1 hes⟩
  obtain ⟨m, hm⟩ := hempty
  refine ⟨fs', ?_, home_of_empty h.abs h.shown (wf_apply h.wf _ hok) hm, fun q hq => ?_⟩
  · obtain ⟨hr, hw⟩ := Prog.wp_run (h := handle answer) (p := initCmd absDir)
      (Q := fun r w' => r = .ok () ∧ w' = { w with fs := fs' }) (wp_change (I := fun _ => True)
        (fun e he => by rw [hok] at he; cases he)
        fun fs hfs => ⟨trivial, rfl, by rw [Except.ok.inj (hok.symm.trans hfs)]⟩)
    exact Prod.ext hr hw
  · rw [hview, if_neg]
    rintro ⟨hpre, hnone⟩
    rw [resolve_storageDir h.abs, List.prefix_append_right_inj, storageNames,
      List.prefix_cons_iff] at hpre
    rcases hpre with rfl | ⟨t, rfl, -⟩
    · obtain ⟨m, hm⟩ := h.dir
      rw [List.append_nil, hm] at hnone
      cases hnone
    · exact absurd (hq _ List.mem_cons_self) (by decide)

variable (answer) in
/-- **The daemon starts** in a directory that was initialised. -/
theorem run_serveCmd (h : Home absDir w.fs) : ∃ d w',
    (serveCmd (.ok ()) absDir).run (handle answer) w = (.ok d, w') ∧ d.absDir = absDir ∧
      d.store = storeOf absDir ∧ Home absDir w'.fs ∧ (storeOf absDir).Grown w.fs w'.fs := by
  suffices hwp : Prog.wp (handle answer) (fun _ => True) (serveCmd (.ok ()) absDir)
      (fun r w' => ∃ d, r = .ok d ∧ d.absDir = absDir ∧ d.store = storeOf absDir ∧
        Home absDir w'.fs ∧ (storeOf absDir).Grown w.fs w'.fs) w by
    obtain ⟨d, hr, hd⟩ := Prog.wp_run hwp
    exact ⟨d, _, Prod.ext hr rfl, hd⟩
  refine wp_stat.2 ⟨trivial, ?_⟩
  split
  · next hstat =>
      have hnone := Os.reach_of_stat_error hstat
      obtain ⟨m, hm⟩ := isDir_store h.tidy
      simp [Os.view, hnone] at hm
  refine Prog.wp_bind.2 (wp_newBlobStore_ready h.abs h.tidy trivial ?_)
  refine Prog.wp_bind.2 (Prog.wp_mono (wp_indexHome h) ?_)
  rintro counts _ ⟨fs', rfl, hhome, hg, -⟩
  refine Prog.wp_bind.2 (Merkle.wp_buildFromFS trivial (fun m es hreach => ?_) fun hno => ?_)
  · obtain ⟨start, hstart⟩ := exists_front (le_length_hash_root absDir m es)
    dsimp only [printsRoot]
    rw [hstart]
    exact ⟨_, rfl, rfl, rfl, hhome, hg⟩
  · obtain ⟨m, hm⟩ := isDir_of_ready h.abs hhome.tidy.ready
    obtain ⟨es, hes⟩ := Os.stat_of_view_dir hm
    exact (hno m es (Os.stat_ok.1 hes)).elim

/-- What is visible of a directory is what is visible of `e`. -/
def Shows (absDir : Bytes) (fs : Os.Fs) (e : Os.Entry) : Prop :=
  ∀ q, Visible q → Os.view fs (resolve absDir ++ q) = Os.view (some e) q

/-- The manifest is that of what is visible. -/
theorem Shows.manifest {fs : Os.Fs} {e e' : Os.Entry} (h : Shows absDir fs e) (he : e.WF)
    (hwf : fs.WF) (hreach : Os.reach fs (resolve absDir) = some e') (name : Bytes) :
    buildNode name e' = buildNode name e :=
  Merkle.buildNode_of_view (Os.wf_reach hwf _ _ hreach) he
    (fun q hq => (view_of_reach hreach q).symm.trans (h q hq)) name

theorem Shows.grown {fs fs' : Os.Fs} {e : Os.Entry} (h : Shows absDir fs e) (habs : isAbs absDir)
    (hg : (storeOf absDir).Grown fs fs') : Shows absDir fs' e :=
  fun q hq => (hg.outside (not_store_above habs hq)).trans (h q hq)

variable (answer) in
/-- **A directory is initialised and served**, and looks as before. -/
theorem run_init_serve (h : Untouched absDir w.fs) {e : Os.Entry}
    (he : Os.reach w.fs (resolve absDir) = some e) : ∃ d w',
    (initCmd absDir >>= fun _ => serveCmd (.ok ()) absDir).run (handle answer) w = (.ok d, w') ∧
      d.absDir = absDir ∧ d.store = storeOf absDir ∧ Home absDir w'.fs ∧
      Shows absDir w'.fs e := by
  obtain ⟨fs₁, hinit, hhome₁, hview₁⟩ := run_initCmd answer h
  obtain ⟨d, w', hserve, hdir, hstore, hhome, hgrown⟩ :=
    run_serveCmd answer (w := { w with fs := fs₁ }) hhome₁
  have hshows : Shows absDir fs₁ e := fun q hq => (hview₁ q hq).trans (view_of_reach he q)
  exact ⟨d, w', by rw [Prog.run_bind, hinit, hserve], hdir, hstore, hhome,
    hshows.grown h.abs hgrown⟩

end Init

/-! ### The first sync -/

/-- A file with content, or a directory with something in it, has the SHA-256 of nothing. -/
def HashedAsEmpty (root : ManifestNode) : Prop :=
  ∃ q n, root.At q n ∧ n.hash = (sum256 []).bytes ∧ (n.chunks ≠ [] ∨ n.children ≠ [])

section FirstSync

variable {absDir : Bytes} {fs : Os.Fs} {root : ManifestNode} {e e' : Os.Entry}

/-- Nothing is seen of the directory but itself. -/
def Blank (absDir : Bytes) (fs : Os.Fs) : Prop :=
  ∀ q, Visible q → q ≠ [] → Os.view fs (resolve absDir ++ q) = none

/-- The manifest of a blank directory is that of an empty one. -/
theorem manifest_of_blank (h : Blank absDir fs) (hwf : fs.WF) {m : UInt32}
    {es : List (Bytes × Os.Entry)} (hreach : Os.reach fs (resolve absDir) = some (.dir m es)) :
    manifestOf absDir (.dir m es) = manifestOf absDir (.dir m []) := by
  refine congrArg convertTreeToManifest (Merkle.buildNode_of_view (Os.wf_reach hwf _ _ hreach)
    (.dir m (by simp) (by simp) (by simp)) (fun q hq => ?_) _)
  rw [← view_of_reach hreach]
  cases q with
  | nil =>
    rw [List.append_nil, Os.view, hreach]
    rfl
  | cons c q => rw [h _ hq (by simp), Os.view, Os.reach, List.lookup_nil, Os.reach_none,
      Option.map_none]

theorem exists_at_leaf {n : ManifestNode} (h : n.children = []) {s : List Bytes} :
    (∃ m, n.At s m) ↔ s = [] := by
  constructor
  · rintro ⟨m, _ | ⟨hc, -⟩⟩
    · rfl
    · simp [h] at hc
  · rintro rfl
    exact ⟨n, .here n⟩

theorem faithful_of_blank (h : Blank absDir fs) (hwf : fs.WF) {m : UInt32}
    {es : List (Bytes × Os.Entry)} (hreach : Os.reach fs (resolve absDir) = some (.dir m es))
    (hroot : ¬ HashedAsEmpty root) : Faithful (manifestOf absDir (.dir m es)) root := by
  intro q q' a b ha hb heq
  have hchildren : (manifestOf absDir (.dir m [])).children = [] := rfl
  rw [manifest_of_blank h hwf hreach] at ha
  obtain rfl := (exists_at_leaf hchildren).1 ⟨a, ha⟩
  obtain rfl := ManifestNode.at_nil.1 ha
  have hempty : b.hash = (sum256 []).bytes := heq.symm
  have hleaf : b.chunks = [] ∧ b.children = [] := by
    by_contra hne
    rw [not_and_or] at hne
    exact hroot ⟨q', b, hb, hempty, hne⟩
  refine ⟨fun s => ?_, fun hash => ?_⟩
  · rw [exists_at_leaf hchildren, exists_at_leaf hleaf.2]
  · rw [hasChunk_iff, hasChunk_iff, hchildren, (convert_dir (base absDir) m []).2, hleaf.1, hleaf.2]

/-- There is room in a blank directory. -/
theorem room_of_blank (h : Blank absDir fs) (hdir : IsDir fs (resolve absDir))
    (hroot : Advertised root) : Room absDir root fs := by
  have hview (s : List Bytes) (n : ManifestNode) (hn : root.At s n) :
      Os.view fs (resolve absDir ++ s) = none ∨ s = [] :=
    or_iff_not_imp_right.2 (h s (hroot.visible hn))
  constructor
  · intro s n hn _ m c hfile
    rcases hview s n hn with hnone | rfl
    · rw [hnone] at hfile
      cases hfile
    · obtain ⟨m', hm'⟩ := hdir
      rw [List.append_nil, hm'] at hfile
      cases hfile
  · intro s n hn hfile _ m hdir'
    rcases hview s n hn with hnone | rfl
    · rw [hnone] at hdir'
      cases hdir'
    · rw [ManifestNode.at_nil.1 hn, hroot.isDir] at hfile
      cases hfile

/-- What a blank directory lacks of another are the empty files. -/
theorem emptyFilesThere_of_blank (h : Blank absDir fs) (hdir : IsDir fs (resolve absDir)) :
    EmptyFilesThere absDir fs e ↔ ∀ q, Visible q → Os.content (some e) q ≠ some [] := by
  refine forall_congr' fun q => imp_congr_right fun hq => ?_
  refine imp_congr_right fun _ => iff_of_false (fun hthere => ?_) id
  obtain ⟨m, hm⟩ := Os.content_eq_some.1 hthere
  by_cases hne : q = []
  · obtain ⟨m', hm'⟩ := hdir
    rw [hne, List.append_nil, hm'] at hm
    cases hm
  · rw [h q hq hne] at hm
    cases hm

theorem strangersBare_of_blank (h : Blank absDir fs) : StrangersBare absDir fs e := by
  intro q hq hlacks
  refine childless_of_view_none (h q hq ?_)
  rintro rfl
  simp [Os.view] at hlacks

end FirstSync

section Commands

/-- The first sync with a provider into a directory in which nothing is visible. -/
theorem first_sync {ν : Type} {answer : Request → ν → Exchange × ν}
    {data : ν → Bytes → Option Bytes} {good : ν → Prop} (ord : Diff.DiffOrder) {peer : Net.Peer}
    (hpeer : ∀ root ∈ peer.merkleRoot, 8 ≤ Allocator.cap root.length)
    (hprov : Provider answer data good) {n : ν} (hgood : good n) {hostDir absDir : Bytes}
    {e : Os.Entry} (he : e.WF) (hserved : servedRoot answer n = some (manifestOf hostDir e))
    (hhash : ¬ HashedAsEmpty (manifestOf hostDir e)) {fs : Os.Fs} (hguest : Untouched absDir fs)
    (hblank : Blank absDir fs) (umask : UInt32) :
    ∃ k w', (initCmd absDir >>= fun _ => syncCmd ord (.ok peer) absDir).run (handle answer)
        ⟨fs, umask, n⟩ = (.ok (.complete k), w') ∧
      (Collides (storeOf absDir) w'.fs e ∨
        (Mirrors absDir w'.fs e ↔ ∀ q, Visible q → Os.content (some e) q ≠ some [])) := by
  -- The directory is blank after it has been initialised.
  obtain ⟨fs₁, hinit, hhome, hview⟩ := run_initCmd answer (w := ⟨fs, umask, n⟩) hguest
  have hblank₁ : Blank absDir fs₁ := fun q hq hne => (hview q hq).trans (hblank q hq hne)
  obtain ⟨m, hm⟩ := isDir_of_ready hhome.abs hhome.tidy.ready
  obtain ⟨es, hes⟩ := Os.stat_of_view_dir hm
  have hreach := Os.stat_ok.1 hes
  have hfaithful : Faithful (manifestOf absDir (.dir m es)) (manifestOf hostDir e) :=
    faithful_of_blank hblank₁ hhome.wf hreach hhash
  obtain ⟨root, hreply, hroot, -⟩ := hprov.manifest hgood
  obtain rfl : root = manifestOf hostDir e := by simpa [servedRoot, hreply] using hserved
  obtain ⟨k, w', -, -, hsync, -, hcourse, -, -⟩ := exists_course ord hpeer hprov
    (w := ⟨fs₁, umask, n⟩) hgood hserved hhome hreach (room_of_blank hblank₁ ⟨m, hm⟩ hroot)
    hfaithful.sameChunks
  refine ⟨k, w', by rw [Prog.run_bind, hinit, hsync], or_iff_not_imp_left.2 fun hno => ?_⟩
  rw [hcourse.mirrors_iff hhome.abs hhome.wf hhome.sound hreach rfl hroot he rfl hfaithful hno,
    and_iff_left (strangersBare_of_blank hblank₁), emptyFilesThere_of_blank hblank₁ ⟨m, hm⟩]

variable {μ : Type} {nobody : Request → μ → Exchange × μ} {host : World μ}
  {hostDir absDir : Bytes} {fs : Os.Fs} {e : Os.Entry}

/-- **The first sync.**  A directory is initialised and served, another one in which nothing is
visible is initialised and synced with it: the sync completes, and the directory then mirrors the
one that is served just when that has no visible empty file, or else two different chunks have the
same SHA-256. -/
theorem first_sync_mirrors_iff (ord : Diff.DiffOrder) {peer : Net.Peer}
    (hpeer : ∀ root ∈ peer.merkleRoot, 8 ≤ Allocator.cap root.length)
    (hhost : Untouched hostDir host.fs) (he : Os.reach host.fs (resolve hostDir) = some e)
    (hhash : ¬ HashedAsEmpty (manifestOf hostDir e)) (hguest : Untouched absDir fs)
    (hblank : Blank absDir fs) (umask : UInt32) :
    ∃ (d : Daemon) (host' : World μ) (hstore : d.store = storeOf d.absDir)
      (hhome : Home d.absDir host'.fs),
      (initCmd hostDir >>= fun _ => serveCmd (.ok ()) hostDir).run (handle nobody) host =
          (.ok d, host') ∧
        ∃ n w', (initCmd absDir >>= fun _ => syncCmd ord (.ok peer) absDir).run
            (handle (d.answer hstore nobody)) ⟨fs, umask, ⟨host', hhome⟩⟩ =
              (.ok (.complete n), w') ∧
          (Collides (storeOf absDir) w'.fs e ∨
            (Mirrors absDir w'.fs e ↔ ∀ q, Visible q → Os.content (some e) q ≠ some [])) := by
  obtain ⟨d, host', hserve, rfl, hstore, hhome, hshows⟩ := run_init_serve nobody hhost he
  refine ⟨d, host', hstore, hhome, hserve, ?_⟩
  have hwf : e.WF := Os.wf_reach hhost.wf _ _ he
  have hbehind := d.behind_answer hstore nobody
  refine first_sync ord hpeer (daemon_provider hbehind hstore) trivial hwf ?_ hhash hguest hblank
    umask
  -- The manifest is that of the directory before it was initialised.
  obtain ⟨fs', m, es, hw', hhome', hgrown, hreach, -⟩ :=
    Prog.wp_run (h := handle nobody) (wp_onManifestRequest hstore hhome)
  have hreach' : Os.reach (d.answer hstore nobody .manifest ⟨host', hhome⟩).2.1.fs
      (resolve d.absDir) = some (.dir m es) :=
    (congrArg (fun w : World μ => Os.reach w.fs (resolve d.absDir)) hw').trans hreach
  rw [hbehind.servedRoot_eq hstore hreach', manifestOf, manifestOf,
    (hshows.grown hhome.abs (hstore ▸ hgrown)).manifest hwf hhome'.wf hreach]

end Commands

/-- A file system with one directory. -/
def oneDirectory (name : Bytes) (e : Os.Entry) : Os.Fs := some (.dir 0o755 [(name, e)])

theorem untouched_oneDirectory {name : Bytes} {e : Os.Entry} (hname : Plain name)
    (habs : isAbs (47 :: name)) (hshown : Merkle.hidden (base (47 :: name)) = false) (he : e.WF)
    (hdir : IsDir (oneDirectory name e) (resolve (47 :: name)))
    (hstore : Os.view (oneDirectory name e) (resolve (47 :: name) ++
      [[46, 115, 116, 111, 114, 97, 103, 101]]) = none) :
    Untouched (47 :: name) (oneDirectory name e) where
  abs := habs
  shown := hshown
  wf := Os.wf_some.2 (.dir _ (by simp) (by simpa using hname)
    (List.forall_mem_cons.2 ⟨he, by simp⟩))
  dir := hdir
  store := hstore

/-- The entries of the peer's directory. -/
theorem eq_of_reach_peerEntry {q : List Bytes} {x : Os.Entry}
    (h : Os.reach (some peerEntry) q = some x) :
    q = [] ∧ x = peerEntry ∨ q = [[97]] ∧ x = .file 0o644 [7] := by
  cases q with
  | nil => exact Or.inl ⟨rfl, (Option.some.inj h).symm⟩
  | cons c q =>
    rw [peerEntry, Os.reach] at h
    by_cases hc : c = [97]
    · rw [hc, List.lookup_cons_self] at h
      cases q with
      | nil => exact Or.inr ⟨by rw [hc], (Option.some.inj h).symm⟩
      | cons => cases h
    · rw [List.lookup_cons, beq_false_of_ne hc] at h
      simp at h

theorem not_hashedAsEmpty_peerEntry : ¬ HashedAsEmpty (manifestOf [47, 104] peerEntry) := by
  rintro ⟨q, n, hn, hhash, -⟩
  obtain ⟨-, x, hx, rfl⟩ := (at_buildNode_iff wf_peerEntry).1 hn
  rcases eq_of_reach_peerEntry hx with ⟨rfl, rfl⟩ | ⟨rfl, rfl⟩
  · exact absurd hhash (by decide +kernel)
  · exact absurd hhash (by decide +kernel)

/-- Nothing is visible of an empty directory but itself. -/
theorem blank_emptyDirectory : Blank [47, 100] (oneDirectory [100] (.dir 0o755 [])) := by
  intro q _ hne
  cases q with
  | nil => exact (hne rfl).elim
  | cons c q => exact congrArg (Option.map Os.Entry.kind) (Os.reach_none q)

theorem untouched_peerEntry : Untouched [47, 104] (oneDirectory [104] peerEntry) :=
  untouched_oneDirectory (by decide) (by decide) (by decide) wf_peerEntry ⟨0o755, rfl⟩ rfl

theorem untouched_emptyDirectory : Untouched [47, 100] (oneDirectory [100] (.dir 0o755 [])) :=
  untouched_oneDirectory (by decide) (by decide) (by decide)
    (.dir _ (by simp) (by simp) (by simp)) ⟨0o755, rfl⟩ rfl

theorem first_sync_mirrors_iff_one_file :
    ∃ (d : Daemon) (host' : World Unit) (hstore : d.store = storeOf d.absDir)
      (hhome : Home d.absDir host'.fs),
      (initCmd [47, 104] >>= fun _ => serveCmd (.ok ()) [47, 104]).run (handle noPeer)
          ⟨oneDirectory [104] peerEntry, 0o022, ()⟩ = (.ok d, host') ∧
        ∃ n w', (initCmd [47, 100] >>= fun _ =>
            syncCmd (.listed _ _) (.ok ⟨[], none⟩) [47, 100]).run (handle (d.answer hstore noPeer))
              ⟨oneDirectory [100] (.dir 0o755 []), 0o022, ⟨host', hhome⟩⟩ =
                (.ok (.complete n), w') ∧
          (Collides (storeOf [47, 100]) w'.fs peerEntry ∨
            (Mirrors [47, 100] w'.fs peerEntry ↔
              ∀ q, Visible q → Os.content (some peerEntry) q ≠ some [])) :=
  first_sync_mirrors_iff _ (by simp) untouched_peerEntry rfl not_hashedAsEmpty_peerEntry
    untouched_emptyDirectory blank_emptyDirectory _

end FileSync.Cli
