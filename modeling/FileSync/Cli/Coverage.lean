import FileSync.Cli.Sync

/-!
# Cli — the chunks that are asked for

Of the nodes that `DiffTrees` lists as added or modified, the sync command asks its peer for the
chunks that its store does not have (`neededChunks`, in `cmd/p2p-file-sync/main.go`).

* `mem_needed`: which chunks these are.
* `fetched_of_lists`, `lists_of_fetched`: the nodes listed are the remote ones that have no local
  node, and those where both sides have a file.
* `coverage_iff`: a file where the local side has a directory is not among them.  Every chunk of the
  remote files is in the store or asked for just when the chunks of such files are in the store or
  in a node that is listed.
-/

open Sha256 Filepath

namespace FileSync.Cli

open Proto (ManifestNode Request Exchange)
open Cas (BlobStore)
open Diff (DiffOrder DiffResult diffNode diffChild diffTrees Descends)

/-- The hashes that the command asks its peer for. -/
def neededChunks (store : BlobStore) (diff : DiffResult) : Cmd (List Bytes) := do
  let added ← collectMissingBelow store diff.added
  let modified ← collectMissingBelow store diff.modified
  return added ++ modified

/-- What `applyDiff` does with them. -/
theorem applyDiff_eq (absDir : Bytes) (store : BlobStore) (root : ManifestNode)
    (diff : DiffResult) :
    applyDiff absDir store root diff = (do
      let needed ← neededChunks store diff
      match ← download store (Blocks.blocks batchSize needed) 0 with
      | (_, some e) => return .error (.err e)
      | (_, none) =>
      match ← reconstructFiles absDir (some root) store with
      | (_, some (.err e)) => return .error (.err (.wrap "reconstructing files" e))
      | (_, some fault) => return .error fault
      | (filesWritten, none) => do
          deleteAll absDir diff.deleted
          return .ok filesWritten) := by
  rw [applyDiff, neededChunks, Prog.bind_assoc]
  refine congrArg _ (funext fun added => Eq.trans ?_ (Prog.bind_assoc _ _ _).symm)
  rfl

/-- A hash is a chunk of the node or of one below it. -/
def HasChunk (n : ManifestNode) (hash : Bytes) : Prop := ∃ q m, n.At q m ∧ hash ∈ m.chunks

theorem hasChunk_iff {n : ManifestNode} {hash : Bytes} :
    HasChunk n hash ↔ hash ∈ n.chunks ∨ ∃ c ∈ n.children, HasChunk c hash := by
  constructor
  · rintro ⟨_, m, _ | ⟨hc, hm⟩, hhash⟩
    · exact .inl hhash
    · exact .inr ⟨_, hc, _, m, hm, hhash⟩
  · rintro (hhash | ⟨c, hc, q, m, hm, hhash⟩)
    · exact ⟨[], n, .here n, hhash⟩
    · exact ⟨_, m, .child hc hm, hhash⟩

/-! ### What is collected -/

section Collect

variable {ν : Type} {answer : Request → ν → Exchange × ν} {store : BlobStore} {w : World ν}

/-- A program that changes nothing and returns the hashes of `P` that the store does not have. -/
def Collects (answer : Request → ν → Exchange × ν) (store : BlobStore) (w : World ν)
    (p : Cmd (List Bytes)) (P : Bytes → Prop) : Prop :=
  Prog.wp (handle answer) (fun _ => True) p
    (fun hashes w' => w' = w ∧ ∀ hash, hash ∈ hashes ↔ P hash ∧ ¬ store.Holds w.fs hash) w

theorem Collects.congr {p : Cmd (List Bytes)} {P P' : Bytes → Prop}
    (h : Collects answer store w p P) (hP : ∀ hash, P' hash ↔ P hash) :
    Collects answer store w p P' := by
  refine Prog.wp_mono h ?_
  rintro hashes _ ⟨rfl, hhashes⟩
  exact ⟨rfl, fun hash => by rw [hhashes, hP]⟩

theorem collects_append {p p' : Cmd (List Bytes)} {P P' : Bytes → Prop}
    (h : Collects answer store w p P) (h' : Collects answer store w p' P') :
    Collects answer store w (do return (← p) ++ (← p')) fun hash => P hash ∨ P' hash := by
  refine Prog.wp_bind.2 (Prog.wp_mono h ?_)
  rintro hashes _ ⟨rfl, hhashes⟩
  refine Prog.wp_bind.2 (Prog.wp_mono h' ?_)
  rintro hashes' _ ⟨rfl, hhashes'⟩
  refine ⟨rfl, fun hash => ?_⟩
  rw [List.mem_append, hhashes, hhashes', or_and_right]

theorem collects_missingOf (hs : isAbs store.baseDir) (hashes : List Bytes) :
    Collects answer store w (missingOf store hashes) (· ∈ hashes) := by
  induction hashes with
  | nil => exact ⟨rfl, by simp⟩
  | cons hash hashes ih =>
    refine Prog.wp_bind.2 (BlobStore.wp_has hs trivial (Prog.wp_bind.2 (Prog.wp_mono ih ?_)))
    rintro rest w' ⟨rfl, hrest⟩
    refine ⟨rfl, fun h => ?_⟩
    by_cases hholds : store.Holds w'.fs hash <;> grind

mutual

theorem collects_collectMissingChunks (hs : isAbs store.baseDir) :
    ∀ n : ManifestNode, Collects answer store w (collectMissingChunks store n) (HasChunk n)
  | { name, isDir, hash, mode, size, children := cs, chunks } => by
    rw [collectMissingChunks]
    exact (collects_append (collects_missingOf hs chunks)
      (collects_collectMissingBelow hs cs)).congr fun _ => hasChunk_iff

theorem collects_collectMissingBelow (hs : isAbs store.baseDir) :
    ∀ cs : List ManifestNode, Collects answer store w (collectMissingBelow store cs)
      fun hash => ∃ c ∈ cs, HasChunk c hash
  | [] => ⟨rfl, by simp⟩
  | c :: cs => by
    rw [collectMissingBelow]
    simp only [List.exists_mem_cons_iff]
    exact collects_append (collects_collectMissingChunks hs c)
      (collects_collectMissingBelow hs cs)

end

/-- A node that is listed as added or modified has the chunk. -/
def Lists (diff : DiffResult) (hash : Bytes) : Prop :=
  (∃ n ∈ diff.added, HasChunk n hash) ∨ ∃ n ∈ diff.modified, HasChunk n hash

/-- **What is asked for**: the chunks of the nodes listed that the store does not have. -/
theorem mem_needed (answer : Request → ν → Exchange × ν) (w : World ν)
    (hs : isAbs store.baseDir) (diff : DiffResult) :
    ∃ needed, Prog.run (handle answer) (neededChunks store diff) w = (needed, w) ∧
      ∀ hash, hash ∈ needed ↔ Lists diff hash ∧ ¬ store.Holds w.fs hash := by
  have h : Collects answer store w (neededChunks store diff) (Lists diff) :=
    collects_append (collects_collectMissingBelow hs diff.added)
      (collects_collectMissingBelow hs diff.modified)
  exact ⟨_, Prod.ext rfl (Prog.wp_run h).1, (Prog.wp_run h).2⟩

end Collect

/-! ### What is listed -/

theorem lists_gather {hash : Bytes} (results : List DiffResult) :
    Lists (Diff.gather results) hash ↔ ∃ d ∈ results, Lists d hash := by
  simp only [Lists, Diff.gather, List.mem_flatMap]
  grind

/-- A node at these names is fetched: the local side has none there, or both sides have a file
there or above. -/
def Fetched (l : Option ManifestNode) (r : ManifestNode) (q : List Bytes) : Prop :=
  (∀ a ∈ l, ∀ m, ¬ a.At q m) ∨
    ∃ p, p <+: q ∧ (∃ a ∈ l, ∃ m, a.At p m ∧ m.isDir = false) ∧ ∃ m, r.At p m ∧ m.isDir = false

section Listed

variable {l r c d : ManifestNode} {hash : Bytes}

/-- Of children of one name, what is fetched below them is fetched. -/
theorem fetched_child (hl : l.Distinct) (hr : r.Distinct) (hfiles : l.isDir = true ∨ r.isDir = true)
    (hc : c ∈ l.children) (hd : d ∈ r.children) (hname : c.name = d.name) (q : List Bytes) :
    Fetched (some l) r (d.name :: q) ↔ Fetched (some c) d q := by
  have hlocal (s : List Bytes) (m : ManifestNode) : l.At (d.name :: s) m ↔ c.At s m := by
    rw [← hname, hl.at_child hc]
  have hremote (s : List Bytes) (m : ManifestNode) : r.At (d.name :: s) m ↔ d.At s m :=
    hr.at_child hd
  unfold Fetched
  simp only [Option.mem_some_iff, forall_eq', exists_eq_left', hlocal]
  refine or_congr_right ⟨?_, ?_⟩
  · rintro ⟨_ | ⟨name, p⟩, hp, ⟨a, ha, hafile⟩, b, hb, hbfile⟩
    · rw [Proto.ManifestNode.at_nil] at ha hb
      subst ha hb
      simp [hafile, hbfile] at hfiles
    · obtain ⟨rfl, hpq⟩ := List.cons_prefix_cons.1 hp
      exact ⟨p, hpq, ⟨a, (hlocal p a).1 ha, hafile⟩, b, (hremote p b).1 hb, hbfile⟩
  · rintro ⟨p, hp, ⟨a, ha, hafile⟩, b, hb, hbfile⟩
    exact ⟨d.name :: p, List.cons_prefix_cons.2 ⟨rfl, hp⟩, ⟨a, (hlocal p a).2 ha, hafile⟩, b,
      (hremote p b).2 hb, hbfile⟩

/-- What is listed is fetched. -/
theorem fetched_of_lists {ord : DiffOrder} (hl : l.Distinct) (hr : r.Distinct) {pos : List Bytes}
    {path : Bytes} (h : Lists (diffNode ord pos l r path) hash) :
    ∃ q n, r.At q n ∧ hash ∈ n.chunks ∧ Fetched (some l) r q := by
  induction hl generalizing r pos path with
  | @node l hnames hbelow ih =>
    by_cases hdesc : Descends l r
    · rcases (Diff.diffNode_iff (F := (Lists · hash)) lists_gather hdesc hnames hr.hnames).1 h
        with ⟨c, hc, hlists⟩ | ⟨d, hd, hno, hlists⟩
      · by_cases hex : ∃ d ∈ r.children, d.name = c.name
        · obtain ⟨d, hd, hname⟩ := hex
          rw [Diff.diffChild_present hr.hnames hd hname] at hlists
          obtain ⟨q, n, hn, hhash, hf⟩ := ih c hc (hr.hbelow d hd) hlists
          exact ⟨d.name :: q, n, .child hd hn, hhash,
            (fetched_child (.node hnames hbelow) hr hdesc.2 hc hd hname.symm q).2 hf⟩
        · have hno : ∀ d ∈ r.children, d.name ≠ c.name := fun d hd hname => hex ⟨d, hd, hname⟩
          simp [Diff.diffChild_absent hr.hnames hno, Lists] at hlists
      · obtain ⟨q, n, hn, hhash⟩ : HasChunk d hash := by simpa [Lists] using hlists
        refine ⟨d.name :: q, n, .child hd hn, hhash, .inl ?_⟩
        rintro _ ⟨⟩ m hm
        obtain ⟨c, hc, hname, -⟩ := Proto.ManifestNode.at_cons.1 hm
        exact hno c hc hname
    · rw [Diff.diffNode_of_not_descends hdesc] at h
      split at h
      · simp [Lists] at h
      · next hhashes =>
          have hfiles : l.isDir = false ∧ r.isDir = false := by
            simpa [Descends, hhashes] using hdesc
          obtain ⟨q, n, hn, hhash⟩ : HasChunk r hash := by simpa [Lists] using h
          exact ⟨q, n, hn, hhash, .inr ⟨[], List.nil_prefix, ⟨l, rfl, l, .here l, hfiles.1⟩, r,
            .here r, hfiles.2⟩⟩

/-- Nodes with equal hashes have the same chunks below them. -/
def SameChunks (l r : ManifestNode) : Prop :=
  ∀ {q q' a b}, l.At q a → r.At q' b → a.hash = b.hash →
    ∀ hash, HasChunk a hash ↔ HasChunk b hash

theorem SameChunks.below (h : SameChunks l r) (hc : c ∈ l.children) (hd : d ∈ r.children) :
    SameChunks c d :=
  fun ha hb => h (.child hc ha) (.child hd hb)

/-- Where two nodes are not compared through their children, every chunk below the remote one is
local or listed. -/
theorem lists_of_not_descends {ord : DiffOrder} {pos : List Bytes} {path : Bytes}
    (hsame : SameChunks l r) (hdesc : ¬ Descends l r) (hchunk : HasChunk r hash) :
    HasChunk l hash ∨ Lists (diffNode ord pos l r path) hash := by
  rw [Diff.diffNode_of_not_descends hdesc]
  split
  · next hhashes => exact .inl ((hsame (.here l) (.here r) hhashes hash).2 hchunk)
  · exact .inr (.inr ⟨r, List.mem_singleton_self r, hchunk⟩)

/-- **What is fetched is listed**, or is a chunk of the local side. -/
theorem lists_of_fetched {ord : DiffOrder} (hl : l.Distinct) (hr : r.Distinct)
    (hsame : SameChunks l r) {pos : List Bytes} {path : Bytes} {q : List Bytes} {n : ManifestNode}
    (hn : r.At q n) (hhash : hash ∈ n.chunks) (hf : Fetched (some l) r q) :
    HasChunk l hash ∨ Lists (diffNode ord pos l r path) hash := by
  induction hn generalizing l pos path with
  | here r =>
    refine lists_of_not_descends hsame (fun hdesc => ?_) ⟨[], r, .here r, hhash⟩
    rcases hf with hno | ⟨p, hp, ⟨_, ⟨⟩, a, ha, hafile⟩, b, hb, hbfile⟩
    · exact hno l rfl l (.here l)
    · rw [List.prefix_nil.1 hp, Proto.ManifestNode.at_nil] at ha hb
      subst ha hb
      simp [Descends, hafile, hbfile] at hdesc
  | @child r d n q hd hn ih =>
    by_cases hdesc : Descends l r
    · by_cases hex : ∃ c ∈ l.children, c.name = d.name
      · obtain ⟨c, hc, hname⟩ := hex
        have hbelow := (fetched_child hl hr hdesc.2 hc hd hname q).1 hf
        rcases ih (hl.hbelow c hc) (hr.hbelow d hd) (hsame.below hc hd) hhash hbelow with
          hchunk | hlists
        · exact .inl (hasChunk_iff.2 (.inr ⟨c, hc, hchunk⟩))
        · refine .inr ((Diff.diffNode_iff (F := (Lists · hash)) lists_gather hdesc hl.hnames
            hr.hnames).2 (.inl ⟨c, hc, ?_⟩))
          rw [Diff.diffChild_present hr.hnames hd hname.symm]
          exact hlists
      · refine .inr ((Diff.diffNode_iff (F := (Lists · hash)) lists_gather hdesc hl.hnames
          hr.hnames).2 (.inr ⟨d, hd, fun c hc hname => hex ⟨c, hc, hname⟩, ?_⟩))
        exact .inl ⟨d, List.mem_singleton_self d, q, n, hn, hhash⟩
    · exact lists_of_not_descends hsame hdesc ⟨_, n, .child hd hn, hhash⟩

end Listed

/-! ### Coverage -/

/-- The two sides are as the command finds them: distinct names below every node, the chunks of the
local side in the store, and equal hashes only where the chunks below are the same. -/
structure Indexed (holds : Bytes → Prop) (l : Option ManifestNode) (r : ManifestNode) : Prop where
  distinctLocal : ∀ a ∈ l, a.Distinct
  distinctRemote : r.Distinct
  stored : ∀ a ∈ l, ∀ hash, HasChunk a hash → holds hash
  same : ∀ a ∈ l, SameChunks a r

/-- What is fetched is listed, and what is listed is fetched, but for chunks of the local side. -/
theorem Indexed.lists_iff {holds : Bytes → Prop} {l : Option ManifestNode} {r : ManifestNode}
    (h : Indexed holds l r) {ord : DiffOrder} {d : DiffResult}
    (hd : diffTrees ord l (some r) = .ok d) (hash : Bytes) :
    holds hash ∨ Lists d hash ↔
      holds hash ∨ ∃ q n, r.At q n ∧ hash ∈ n.chunks ∧ Fetched l r q := by
  cases l with
  | none =>
    obtain rfl : { added := [r] } = d := Except.ok.inj hd
    simp only [Lists, List.mem_singleton, exists_eq_left, List.not_mem_nil, false_and,
      exists_false, or_false, HasChunk]
    simp [Fetched]
  | some l =>
    obtain rfl : diffNode ord [] l r [] = d := Except.ok.inj hd
    constructor
    · rintro (hholds | hlists)
      · exact .inl hholds
      · exact .inr (fetched_of_lists (h.distinctLocal l rfl) h.distinctRemote hlists)
    · rintro (hholds | ⟨q, n, hn, hhash, hf⟩)
      · exact .inl hholds
      · exact (lists_of_fetched (h.distinctLocal l rfl) h.distinctRemote (h.same l rfl) hn hhash
          hf).imp_left (h.stored l rfl hash)

/-- **Coverage.**  Every chunk of a file of the remote manifest is in the store or asked for, just
when the chunks of the files that stand where the local side has a directory are in the store or
belong to a node that is fetched. -/
theorem coverage_iff {ν : Type} (answer : Request → ν → Exchange × ν) {store : BlobStore}
    (hs : isAbs store.baseDir) (w : World ν) (ord : DiffOrder) {l : Option ManifestNode}
    {r : ManifestNode} (h : Indexed (store.Holds w.fs) l r) :
    ∃ d needed, diffTrees ord l (some r) = .ok d ∧
      Prog.run (handle answer) (neededChunks store d) w = (needed, w) ∧
      ((∀ q f, r.At q f → f.isDir = false → ∀ hash ∈ f.chunks,
          store.Holds w.fs hash ∨ hash ∈ needed) ↔
        ∀ q f, r.At q f → f.isDir = false → (∃ a ∈ l, ∃ m, a.At q m ∧ m.isDir = true) →
          ∀ hash ∈ f.chunks, store.Holds w.fs hash ∨
            ∃ q' n, r.At q' n ∧ hash ∈ n.chunks ∧ Fetched l r q') := by
  obtain ⟨d, hd⟩ : ∃ d, diffTrees ord l (some r) = .ok d := by
    cases l with
    | none => exact ⟨_, rfl⟩
    | some l => exact ⟨_, rfl⟩
  obtain ⟨needed, hrun, hneeded⟩ := mem_needed answer w hs d
  refine ⟨d, needed, hd, hrun, ?_⟩
  have hcovered (hash : Bytes) : (store.Holds w.fs hash ∨ hash ∈ needed) ↔
      store.Holds w.fs hash ∨ ∃ q n, r.At q n ∧ hash ∈ n.chunks ∧ Fetched l r q := by
    rw [hneeded, ← h.lists_iff hd]
    tauto
  simp only [hcovered]
  constructor
  · exact fun hall q f hf hfile _ => hall q f hf hfile
  · intro hall q f hf hfile hash hhash
    by_cases hdir : ∃ a ∈ l, ∃ m, a.At q m ∧ m.isDir = true
    · exact hall q f hf hfile hdir hash hhash
    · refine .inr ⟨q, f, hf, hhash, ?_⟩
      by_cases hhere : ∃ a ∈ l, ∃ m, a.At q m
      · obtain ⟨a, ha, m, hm⟩ := hhere
        have hmfile : m.isDir = false := by
          rw [← Bool.not_eq_true]
          exact fun hmdir => hdir ⟨a, ha, m, hm, hmdir⟩
        exact .inr ⟨q, List.prefix_rfl, ⟨a, ha, m, hm, hmfile⟩, f, hf, hfile⟩
      · exact .inl fun a ha m hm => hhere ⟨a, ha, m, hm⟩

section TypeChange

open Proto.ManifestNode

/-- A local directory with an empty directory `x`. -/
def localDir : ManifestNode := directory [] [1] [directory [120] [2] []]

/-- A remote directory of files, each with the same chunk. -/
def remoteFiles (names : List Bytes) : ManifestNode :=
  directory [] [3] (names.map fun name => file name [4] [List.replicate 32 0])

theorem at_remoteFiles {names q : List Bytes} {m : ManifestNode} :
    (remoteFiles names).At q m ↔ q = [] ∧ m = remoteFiles names ∨
      ∃ name ∈ names, q = [name] ∧ m = file name [4] [List.replicate 32 0] := by
  rw [remoteFiles, at_directory]
  simp [at_file]

theorem at_localDir {q : List Bytes} {m : ManifestNode} :
    localDir.At q m ↔ q = [] ∧ m = localDir ∨ q = [[120]] ∧ m = directory [120] [2] [] := by
  rw [localDir, at_directory]
  simp [at_directory]

/-- A directory in `/` with a file `a`, and an empty store in `/s`. -/
def homeWorld (name : Bytes) : World (List Exchange) where
  fs := some (.dir 0o755 [(name, .dir 0o755 [([97], .file 0o644 [7])]), ([115], .dir 0o700 [])])
  umask := 0o022
  net := []

theorem reach_store_homeWorld (name : Bytes) (hne : name ≠ [115]) :
    Os.reach (homeWorld name).fs (resolve (BlobStore.mk [47, 115]).baseDir) =
      some (.dir 0o700 []) := by
  have hres : resolve (BlobStore.mk [47, 115]).baseDir = [[115]] := by decide
  have hbeq : ([115] == name) = false := beq_eq_false_iff_ne.2 hne.symm
  simp [hres, homeWorld, Os.reach, List.lookup_cons, hbeq]

theorem indexed_localDir {names : List Bytes} (h : names.Nodup) :
    Indexed ((BlobStore.mk [47, 115]).Holds (homeWorld [100]).fs) (some localDir)
      (remoteFiles names) := by
  refine ⟨?_, ?_, ?_, ?_⟩
  · rintro _ ⟨⟩
    exact .node (by decide) (List.forall_mem_singleton.2 (.node (by decide) (by simp [directory])))
  · refine .node ?_ ?_
    · simpa [remoteFiles, directory, file, Function.comp_def] using h
    · refine List.forall_mem_map.2 fun name _ => .node (by simp [file]) (by simp [file])
  · rintro _ ⟨⟩ hash ⟨q, m, hm, hhash⟩
    rcases at_localDir.1 hm with ⟨-, rfl⟩ | ⟨-, rfl⟩ <;> exact (List.not_mem_nil hhash).elim
  · rintro _ ⟨⟩ q q' a b ha hb hhash
    rcases at_localDir.1 ha with ⟨-, rfl⟩ | ⟨-, rfl⟩ <;>
      rcases at_remoteFiles.1 hb with ⟨-, rfl⟩ | ⟨_, -, -, rfl⟩ <;>
      simp [localDir, remoteFiles, directory, file] at hhash

theorem not_holds_homeWorld (hash : Bytes) (hne : hash ≠ []) :
    ¬ (BlobStore.mk [47, 115]).Holds (homeWorld [100]).fs hash :=
  BlobStore.not_holds_of_empty (reach_store_homeWorld [100] (by decide)) hne

/-- The chunk of the file `x` is asked for if another file has it that the local side lacks. -/
theorem coverage_iff_two_files :
    ∃ d needed, diffTrees (RangeOrder.listed _ _) (some localDir)
        (some (remoteFiles [[120], [121]])) = .ok d ∧
      Prog.run (handle scripted) (neededChunks ⟨[47, 115]⟩ d) (homeWorld [100]) =
        (needed, homeWorld [100]) ∧
      List.replicate 32 0 ∈ needed := by
  have hindexed := indexed_localDir (show [[120], [121]].Nodup by decide)
  obtain ⟨d, needed, hd, hrun, h⟩ :=
    coverage_iff scripted (by decide) (homeWorld [100]) (RangeOrder.listed _ _) hindexed
  have hx : (remoteFiles [[120], [121]]).At [[120]] (file [120] [4] [List.replicate 32 0]) :=
    at_remoteFiles.2 (.inr ⟨[120], by simp, rfl, rfl⟩)
  have hy : (remoteFiles [[120], [121]]).At [[121]] (file [121] [4] [List.replicate 32 0]) :=
    at_remoteFiles.2 (.inr ⟨[121], by simp, rfl, rfl⟩)
  have hcover := h.2 fun q f hf hfile _ hash hhash => .inr ⟨[[121]], _, hy, ?_, .inl ?_⟩
  · exact ⟨d, needed, hd, hrun, (hcover _ _ hx rfl _ (.head _)).resolve_left
      (not_holds_homeWorld _ (by decide))⟩
  · rcases at_remoteFiles.1 hf with ⟨-, rfl⟩ | ⟨_, -, -, rfl⟩
    · exact (List.not_mem_nil hhash).elim
    · exact hhash
  · rintro _ ⟨⟩ m hm
    simp [at_localDir] at hm

/-- The chunk of a file that stands where the local side has a directory is not asked for. -/
theorem file_over_directory_not_covered :
    Indexed ((BlobStore.mk [47, 115]).Holds (homeWorld [100]).fs) (some localDir)
        (remoteFiles [[120]]) ∧
      (remoteFiles [[120]]).At [[120]] (file [120] [4] [List.replicate 32 0]) ∧
      ∃ d needed, diffTrees (RangeOrder.listed _ _) (some localDir)
          (some (remoteFiles [[120]])) = .ok d ∧
        Prog.run (handle scripted) (neededChunks ⟨[47, 115]⟩ d) (homeWorld [100]) =
          (needed, homeWorld [100]) ∧
        ¬ ((BlobStore.mk [47, 115]).Holds (homeWorld [100]).fs (List.replicate 32 0) ∨
          List.replicate 32 0 ∈ needed) := by
  refine ⟨indexed_localDir (by decide), at_remoteFiles.2 (.inr ⟨[120], by simp, rfl, rfl⟩), _, [],
    rfl, rfl, ?_⟩
  rintro (h | h)
  · exact not_holds_homeWorld _ (by decide) h
  · exact List.not_mem_nil h

end TypeChange

end FileSync.Cli
