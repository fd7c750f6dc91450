import FileSync.Cli.Deletions
import FileSync.Cli.Rebuilt
import FileSync.Cli.Serve
import FileSync.Merkle.Visible

/-!
# Cli — a sync completes

A sync from a provider completes unless a file is in the way of one of the provider's directories,
or a directory in the way of one of its files (`cmd/p2p-file-sync/main.go`).

* `Stocks store p`: the program `p` changes the files only by putting chunks under their hashes.
* `Building absDir root c`: the change makes a directory or writes a file of the manifest.
* `Room absDir root fs`: nothing is in the way of the manifest.
-/

open Sha256 Filepath

namespace FileSync.Cli

open Proto (ManifestNode Request Exchange)
open Cas (BlobStore Chunk chunksOf newBlobStore)
open Merkle (Visible Tree buildNode buildFromFS)
open Os (IsDir)

/-! ### Programs that fill the store -/

/-- The files are changed only by putting chunks under their hashes. -/
inductive Stocks (store : BlobStore) : {α : Type} → Cmd α → Prop
  | ret {α : Type} (a : α) : Stocks store (.ret a : Cmd α)
  | bind {α β : Type} {p : Cmd α} {f : α → Cmd β} (hp : Stocks store p)
      (hf : ∀ a, Stocks store (f a)) : Stocks store (p >>= f)
  | query {o : Op} (ho : ∀ c, o ≠ .change c) : Stocks store (.call o .ret)
  | put {chunk : Chunk} (h : (sum256 chunk.data).bytes = chunk.hash) :
      Stocks store (store.put chunk)

section Stocks

variable {store : BlobStore}

theorem stocks_putChunks {chunks : List Chunk} (h : ∀ c ∈ chunks, (sum256 c.data).bytes = c.hash)
    (n : ℕ) : Stocks store (putChunks store chunks n) := by
  induction chunks generalizing n with
  | nil => exact .ret _
  | cons c cs ih =>
    rw [List.forall_mem_cons] at h
    refine .bind (.put h.1) fun r => ?_
    cases r with
    | error e => exact .ret _
    | ok new => exact ih h.2 (n + 1)

theorem stocks_indexFile (path : Bytes) : Stocks store (indexFile store path) := by
  refine .bind (.query (by simp)) fun r => ?_
  cases r with
  | error e => exact .ret _
  | ok _ =>
    refine .bind (.query (by simp)) fun r => ?_
    cases r with
    | error e => exact .ret _
    | ok data => exact stocks_putChunks (fun c hc => Cas.hash_of_mem_chunksOf hc) 0

theorem stocks_inTurn {xs : List (Bytes × Cmd Counts)} (h : ∀ x ∈ xs, Stocks store x.2) :
    Stocks store (inTurn xs) := by
  induction xs with
  | nil => exact .ret _
  | cons x xs ih =>
    rw [List.forall_mem_cons] at h
    exact .bind h.1 fun _ => .bind (ih h.2) fun _ => .ret _

mutual

theorem stocks_walkEntry (path : Bytes) : ∀ e : Os.Entry, Stocks store (walkEntry store path e)
  | .file m c => by
    rw [walkEntry]
    split
    · exact .ret _
    · exact stocks_indexFile path
  | .dir m es => by
    rw [walkEntry]
    split
    · exact .ret _
    · exact stocks_inTurn fun x hx =>
        stocks_walkEntries path es x ((List.mem_insertionSort _).1 hx)

theorem stocks_walkEntries (path : Bytes) : ∀ es : List (Bytes × Os.Entry),
    ∀ x ∈ walkEntries store path es, Stocks store x.2
  | [], x, hx => by simp [walkEntries] at hx
  | (name, e) :: es, x, hx => by
    rw [walkEntries] at hx
    rcases List.mem_cons.1 hx with rfl | hx
    · exact stocks_walkEntry _ e
    · exact stocks_walkEntries path es x hx

end

theorem stocks_indexDirectory (dir : Bytes) : Stocks store (indexDirectory dir store) := by
  refine .bind (.query (by simp)) fun r => ?_
  cases r with
  | error e => exact .ret _
  | ok e => exact stocks_walkEntry dir e

theorem stocks_missingOf (hashes : List Bytes) : Stocks store (missingOf store hashes) := by
  induction hashes with
  | nil => exact .ret _
  | cons hash hashes ih =>
    refine .bind (.bind (.query (by simp)) fun r => ?_) fun _ => .bind ih fun _ => .ret _
    cases r <;> exact .ret _

mutual

theorem stocks_collectMissingChunks : ∀ n : ManifestNode,
    Stocks store (collectMissingChunks store n)
  | { children := cs, .. } => by
    rw [collectMissingChunks]
    exact .bind (stocks_missingOf _) fun _ =>
      .bind (stocks_collectMissingBelow cs) fun _ => .ret _

theorem stocks_collectMissingBelow : ∀ cs : List ManifestNode,
    Stocks store (collectMissingBelow store cs)
  | [] => .ret _
  | c :: cs => by
    rw [collectMissingBelow]
    exact .bind (stocks_collectMissingChunks c) fun _ =>
      .bind (stocks_collectMissingBelow cs) fun _ => .ret _

end

theorem stocks_neededChunks (diff : Diff.DiffResult) : Stocks store (neededChunks store diff) :=
  .bind (stocks_collectMissingBelow diff.added) fun _ =>
    .bind (stocks_collectMissingBelow diff.modified) fun _ => .ret _

theorem stocks_storeChunks (chunks : List Proto.Chunk) (n : ℕ) :
    Stocks store (storeChunks store chunks n) := by
  induction chunks generalizing n with
  | nil => exact .ret _
  | cons c cs ih =>
    refine .bind (.put rfl) fun r => ?_
    cases r <;> exact ih _

theorem stocks_download (batches : List (List Bytes)) (n : ℕ) :
    Stocks store (download store batches n) := by
  induction batches generalizing n with
  | nil => exact .ret _
  | cons batch batches ih =>
    refine .bind (.bind (.query (by simp)) fun _ => .ret _) fun r => ?_
    cases r with
    | error e => exact .ret _
    | ok resp => exact .bind (stocks_storeChunks resp.chunks n) ih

variable {ν : Type} {answer : Request → ν → Exchange × ν}

/-- **The store grows**, call by call, and nothing outside of it changes. -/
theorem Stocks.wp {α : Type} {p : Cmd α} (h : Stocks store p) (hs : isAbs store.baseDir)
    {w : World ν} (hbase : store.Holds w.fs []) :
    Prog.wp (handle answer) (fun w' => store.Grown w.fs w'.fs) p
      (fun _ w' => store.Grown w.fs w'.fs) w := by
  induction h generalizing w with
  | ret a => exact .refl store w.fs
  | bind _ _ ihp ihf =>
    refine Prog.wp_bind.2 (Prog.wp_mono (ihp hbase) fun a w' hg => ?_)
    refine Prog.wp_mono (Prog.wp_weaken (ihf a (hg.holds hbase)) ?_) ?_
    · exact fun _ hg' => hg.trans hg'
    · exact fun _ _ hg' => hg.trans hg'
  | @query o ho =>
    have hfs : (handle answer o w).2.fs = w.fs := by
      cases o with
      | change c => exact (ho c rfl).elim
      | stat | openRead | readAll | readTree | walkTree | exchange => rfl
    have hg : store.Grown w.fs (handle answer o w).2.fs := hfs ▸ .refl store w.fs
    exact ⟨hg, hg⟩
  | put hdata =>
    refine Prog.wp_mono (BlobStore.put_spec hs hbase fun fs' heff => heff.grown hs hbase hdata) ?_
    rintro _ _ ⟨fs', rfl, heff, -⟩
    exact heff.grown hs hbase hdata

end Stocks

/-! ### Downloads -/

section Download

variable {ν : Type} {answer : Request → ν → Exchange × ν} {store : BlobStore} {w : World ν}

/-- In a tidy store the chunks of a response are put under the hashes of their data. -/
theorem wp_storeChunks (hs : isAbs store.baseDir) (ht : store.Tidy w.fs)
    (chunks : List Proto.Chunk) (k : ℕ) :
    Prog.wp (handle answer) (fun _ => True) (storeChunks store chunks k) (fun _ w' =>
      store.Grown w.fs w'.fs ∧ w'.net = w.net ∧
        ∀ c ∈ chunks, store.Holds w'.fs (sum256 c.data).bytes) w := by
  induction chunks generalizing w k with
  | nil => exact ⟨.refl store w.fs, rfl, by simp⟩
  | cons c cs ih =>
    refine Prog.wp_bind.2 (Prog.wp_mono (BlobStore.put_spec hs ht.ready.base
      fun _ _ => trivial) ?_)
    rintro (e | new) _ ⟨fs', rfl, heff, hres⟩
    · exact (BlobStore.put_succeeds ht.clear ht.ready hres).elim
    · have hg : store.Grown w.fs fs' := heff.grown hs ht.ready.base rfl
      have hheld : store.Holds fs' (sum256 c.data).bytes :=
        (BlobStore.holds_put hs heff hres _).2 (Or.inr (List.prefix_refl _))
      refine Prog.wp_mono (ih (w := { w with fs := fs' }) (hg.tidy ht) (k + 1)) ?_
      rintro _ w' ⟨hg', hnet, hall⟩
      exact ⟨hg.trans hg', hnet, List.forall_mem_cons.2 ⟨hg'.holds hheld, hall⟩⟩

/-- What a provider has arrives. -/
theorem wp_download {data : ν → Bytes → Option Bytes} {good : ν → Prop}
    (hprov : Provider answer data good) (hgood : good w.net)
    (hs : isAbs store.baseDir) (ht : store.Tidy w.fs) {batches : List (List Bytes)}
    (hsize : ∀ batch ∈ batches, batch.length ≤ batchSize)
    (hdata : ∀ hash ∈ batches.flatten, data w.net hash ≠ none) (k : ℕ) :
    Prog.wp (handle answer) (fun _ => True) (download store batches k) (fun r w' =>
      r.2 = none ∧ store.Grown w.fs w'.fs ∧
        ∀ hash ∈ batches.flatten, store.Holds w'.fs hash) w := by
  induction batches generalizing w k with
  | nil => exact ⟨rfl, .refl store w.fs, by simp⟩
  | cons batch batches ih =>
    rw [List.flatten_cons, List.forall_mem_append] at hdata
    rw [List.forall_mem_cons] at hsize
    have hmodest : Modest (.chunks batch) := by
      refine ⟨hsize.1, fun hash hmem => ?_⟩
      obtain ⟨c, hc⟩ := Option.ne_none_iff_exists'.1 (hdata.1 hash hmem)
      rw [← hprov.genuine hgood hc, Digest.length_bytes]
    obtain ⟨resp, hreply, hresp⟩ := hprov.chunks batch hgood hmodest
    refine wp_exchange.2 ⟨trivial, ?_⟩
    rw [hreply]
    refine Prog.wp_bind.2 (Prog.wp_mono (wp_storeChunks hs (by exact ht) resp.chunks k) ?_)
    rintro k' w₁ ⟨hg₁, hnet₁, hall₁⟩
    have hdata₁ : ∀ hash ∈ batches.flatten, data w₁.net hash ≠ none := by
      intro hash hmem
      obtain ⟨c, hc⟩ := Option.ne_none_iff_exists'.1 (hdata.2 hash hmem)
      rw [hnet₁, hprov.keeps _ hgood hmodest hc]
      simp
    have hgood₁ : good w₁.net := hnet₁ ▸ hprov.stays _ hgood hmodest
    refine Prog.wp_mono (ih hgood₁ (hg₁.tidy ht) hsize.2 hdata₁ k') ?_
    rintro r w' ⟨hr, hg', hall⟩
    refine ⟨hr, hg₁.trans hg', List.forall_mem_append.2 ⟨fun hash hmem => ?_, hall⟩⟩
    obtain ⟨c, hc⟩ := Option.ne_none_iff_exists'.1 (hdata.1 hash hmem)
    obtain ⟨chunk, hchunk, rfl⟩ := List.mem_map.1 (hresp hash hmem c hc)
    rw [← hprov.genuine hgood hc]
    exact hg'.holds (hall₁ chunk hchunk)

end Download

/-! ### Nothing in the way -/

/-- No file is where the manifest has a directory, and no directory where it has a file with
chunks. -/
structure Room (absDir : Bytes) (root : ManifestNode) (fs : Os.Fs) : Prop where
  dirs : ∀ s n, root.At s n → n.isDir = true → ∀ m c,
    Os.view fs (resolve absDir ++ s) ≠ some (.file m c)
  files : ∀ s n, root.At s n → n.isDir = false → n.chunks ≠ [] → ∀ m,
    Os.view fs (resolve absDir ++ s) ≠ some (.dir m)

/-- The change makes a directory or writes a file of the manifest. -/
def Building (absDir : Bytes) (root : ManifestNode) : Change → Prop
  | .mkdirAll path _ => ∃ s n, root.At s n ∧ n.isDir = true ∧ resolve path = resolve absDir ++ s
  | .openTrunc path _ | .write path _ | .chmod path _ =>
    ∃ s n, root.At s n ∧ n.isDir = false ∧ n.chunks ≠ [] ∧ resolve path = resolve absDir ++ s
  | .rename .. | .remove _ => False

section Building

variable {absDir : Bytes} {root : ManifestNode} {fs fs' : Os.Fs} {umask : UInt32} {c : Change}

/-- What is below a node is below a directory. -/
theorem isDir_of_below (hroot : root.Orderly) {s t : List Bytes} {a b : ManifestNode}
    (ha : root.At s a) (hb : root.At t b) (hpre : s <+: t) (hne : s ≠ t) : a.isDir = true := by
  obtain ⟨a', r, ha', rfl, hr⟩ := hb.above hpre
  obtain rfl := hroot.at_unique ha ha'
  have horderly : a.Orderly := by
    clear hr hne hb ha' hpre
    induction ha with
    | here n => exact hroot
    | child hc _ ih => exact ih (hroot.hbelow _ hc)
  cases hr with
  | here _ => simp at hne
  | child hc _ => exact horderly.hdir (List.ne_nil_of_mem hc)

/-- What a node stands in is a directory. -/
theorem parent_of_at (hroot : root.Orderly) {s : List Bytes} {n : ManifestNode}
    (hn : root.At s n) (hs : s ≠ []) : ∃ b, root.At s.dropLast b ∧ b.isDir = true := by
  obtain ⟨b, r, hb, hr, -⟩ := hn.above (List.dropLast_prefix s)
  refine ⟨b, hb, isDir_of_below hroot hb hn (List.dropLast_prefix s) fun heq => ?_⟩
  have hlen := congrArg List.length heq
  have hpos := List.length_pos_of_ne_nil hs
  rw [List.length_dropLast] at hlen
  omega

/-- One of the manifest's files is written. -/
theorem Room.update (hroot : root.Orderly) (h : Room absDir root fs) {s : List Bytes}
    {n : ManifestNode} (hn : root.At s n) (hfile : n.isDir = false) {k : Option Os.Kind}
    (hk : ∀ m, k ≠ some (.dir m))
    (hview : Os.view fs' = Function.update (Os.view fs) (resolve absDir ++ s) k) :
    Room absDir root fs' where
  dirs := by
    intro t b hb hdir m c
    rw [hview, Function.update_of_ne]
    · exact h.dirs t b hb hdir m c
    · intro heq
      obtain rfl := List.append_cancel_left heq
      simp [hroot.at_unique hb hn, hfile] at hdir
  files := by
    intro t b hb hfile' hne m
    rw [hview, Function.update_apply]
    split
    · exact hk m
    · exact h.files t b hb hfile' hne m

theorem Building.room (hroot : root.Orderly) (hc : Building absDir root c)
    (hok : c.apply fs umask = .ok fs') (h : Room absDir root fs) : Room absDir root fs' := by
  cases c with
  | rename | remove => exact hc.elim
  | mkdirAll path mode =>
    obtain ⟨s, n, hn, hdir, hres⟩ := hc
    have hview := (Os.mkdirAll_ok hok).2
    rw [hres] at hview
    constructor
    · intro t b hb hdir' m c
      rw [hview]
      split
      · simp
      · exact h.dirs t b hb hdir' m c
    · intro t b hb hfile hne m
      rw [hview, if_neg]
      · exact h.files t b hb hfile hne m
      · rintro ⟨hpre, -⟩
        rw [List.prefix_append_right_inj] at hpre
        -- A file of the manifest is neither this directory nor above it.
        by_cases heq : t = s
        · subst heq
          simp [hroot.at_unique hb hn, hdir] at hfile
        · simp [isDir_of_below hroot hb hn hpre heq] at hfile
  | openTrunc path mode =>
    obtain ⟨s, n, hn, hfile, -, hres⟩ := hc
    obtain ⟨m, hview, -⟩ := Os.createTrunc_ok hok
    exact h.update hroot hn hfile (by simp) (hres ▸ hview)
  | write path data =>
    obtain ⟨s, n, hn, hfile, -, hres⟩ := hc
    obtain ⟨m, c, -, hview⟩ := Os.append_ok hok
    exact h.update hroot hn hfile (by simp) (hres ▸ hview)
  | chmod path mode =>
    obtain ⟨s, n, hn, hfile, hne, hres⟩ := hc
    obtain ⟨k, hk, hview⟩ := Os.chmod_ok hok
    refine h.update hroot hn hfile (fun m hm => ?_) (hres ▸ hview)
    cases k with
    | file m' c => simp [Os.Kind.withMode] at hm
    | dir m' => exact h.files s n hn hfile hne m' (hres ▸ hk)

theorem Building.builds (hc : Building absDir root c) : c.Builds := by
  cases c with
  | rename | remove => exact hc.elim
  | mkdirAll | openTrunc | write | chmod => trivial

/-- The store is not touched. -/
theorem Building.spares (habs : isAbs absDir) (hvis : ∀ s n, root.At s n → Visible s)
    (hc : Building absDir root c) {q : List Bytes} (hq : resolve (storageDir absDir) <+: q) :
    c.Spares q := by
  have haway {s : List Bytes} {n : ManifestNode} (hn : root.At s n) :
      ¬ q <+: resolve absDir ++ s :=
    fun hpre => not_store_above habs (hvis s n hn) (hq.trans hpre)
  cases c with
  | rename | remove => exact hc.elim
  | mkdirAll path mode =>
    obtain ⟨s, n, hn, -, hres⟩ := hc
    rw [Change.Spares, hres]
    exact haway hn
  | openTrunc | write | chmod =>
    obtain ⟨s, n, hn, -, -, hres⟩ := hc
    rw [Change.Spares, hres]
    rintro rfl
    exact haway hn (List.prefix_refl _)

end Building

/-! ### The reconstruction succeeds -/

section Visits

variable {absDir : Bytes} {root : ManifestNode} {store : BlobStore}

variable (store) in
/-- A visit builds what the manifest has. -/
theorem building_visit (habs : isAbs absDir) (hroot : root.Orderly) {v : Visit}
    (hv : v ∈ visits (some root)) :
    Prog.Within (Changes (Building absDir root)) (visit absDir store v) := by
  obtain ⟨s, hs, hn, htarget⟩ := at_of_mem_visits habs hroot hv
  unfold visit
  split
  · next hvdir =>
      refine within_change ⟨s, v.node, hn, hvdir, htarget⟩ (fun _ => Prog.within_ret _)
        (Prog.within_ret _)
  · next hvdir =>
      rw [Bool.not_eq_true] at hvdir
      refine Prog.within_bind.2 ⟨?_, fun _ _ => Prog.within_ret _⟩
      by_cases hne : v.node.chunks = []
      · rw [reconstructFile, if_pos hne]
        exact Prog.within_ret _
      · have hfile : ∃ s n, root.At s n ∧ n.isDir = false ∧ n.chunks ≠ [] ∧
            resolve (v.path absDir) = resolve absDir ++ s := ⟨s, v.node, hn, hvdir, hne, htarget⟩
        refine within_reconstructFile ?_ hfile (fun _ => hfile) hfile
        obtain ⟨b, hb, hbdir⟩ := parent_of_at hroot hn hs
        refine ⟨s.dropLast, b, hb, hbdir, ?_⟩
        rw [Visit.resolve_dir_path habs, htarget, List.dropLast_append_of_ne_nil hs]

/-- What is kept while a manifest is built: its room, the directory and the store of `fs`. -/
structure Site (absDir : Bytes) (root : ManifestNode) (fs fs' : Os.Fs) : Prop where
  room : Room absDir root fs'
  dir : IsDir fs' (resolve absDir)
  store : ∀ q, resolve (storageDir absDir) <+: q → Os.view fs' q = Os.view fs q

variable {fs fs₁ fs₂ : Os.Fs} {umask : UInt32} {c : Change}

theorem Site.apply (habs : isAbs absDir) (hroot : root.Orderly)
    (hvis : ∀ s n, root.At s n → Visible s) (hc : Building absDir root c)
    (hok : c.apply fs₁ umask = .ok fs₂) (h : Site absDir root fs fs₁) : Site absDir root fs fs₂ :=
  ⟨hc.room hroot hok h.room, isDir_apply hc.builds hok h.dir, fun q hq =>
    (view_apply (hc.spares habs hvis hq) hok).trans (h.store q hq)⟩

/-- Above the place of a directory there is no file. -/
theorem Site.noFile (hroot : root.Orderly) (h : Site absDir root fs fs₁) {s : List Bytes}
    {n : ManifestNode} (hn : root.At s n) (hdir : n.isDir = true) :
    Os.NoFile fs₁ (resolve absDir ++ s) := by
  intro q hq m c hview
  rcases List.prefix_or_prefix_of_prefix hq (List.prefix_append _ s) with hq | ⟨t, rfl⟩
  · obtain ⟨m', hm'⟩ := h.dir
    by_cases heq : q = resolve absDir
    · rw [heq, hm'] at hview
      cases hview
    · obtain ⟨m'', hm''⟩ := Os.view_dir_above hq heq
        (show Os.view fs₁ (resolve absDir) ≠ none by simp [hm'])
      rw [hm''] at hview
      cases hview
  · have ht : t <+: s := (List.prefix_append_right_inj _).1 hq
    obtain ⟨b, r, hb, -, -⟩ := hn.above ht
    refine h.room.dirs t b hb ?_ m c hview
    by_cases heq : t = s
    · subst heq
      rwa [hroot.at_unique hb hn]
    · exact isDir_of_below hroot hb hn ht heq

variable {ν : Type} {answer : Request → ν → Exchange × ν} {w : World ν}

/-- Whatever is built, the site is kept. -/
theorem Site.building (habs : isAbs absDir) (hroot : root.Orderly)
    (hvis : ∀ s n, root.At s n → Visible s) {o : Op} (ho : Changes (Building absDir root) o)
    (h : Site absDir root fs w.fs) : Site absDir root fs (handle answer o w).2.fs := by
  cases o with
  | stat | openRead | readAll | readTree | walkTree | exchange => exact h
  | change c =>
    simp only [handle]
    cases hok : c.apply w.fs w.umask with
    | error e => exact h
    | ok fs' => exact h.apply habs hroot hvis ho hok

/-- A change that succeeds. -/
theorem wp_change_ok {α : Type} {k : Except Errno Unit → Cmd α} {Q : α → World ν → Prop}
    (hok : c.apply w.fs w.umask = .ok fs₁)
    (hk : Prog.wp (handle answer) (fun _ => True) (k (.ok ())) Q { w with fs := fs₁ }) :
    Prog.wp (handle answer) (fun _ => True) (Sys.change c >>= k) Q w := by
  refine wp_change (fun e he => ?_) fun fs' hfs' => ?_
  · rw [hok] at he
    cases he
  · rw [hok] at hfs'
    cases hfs'
    exact ⟨trivial, hk⟩

/-- A file is written if the store has its chunks. -/
theorem wp_reconstructFile (habs : isAbs absDir) (hs : isAbs store.baseDir) (hroot : root.Orderly)
    (hvis : ∀ s n, root.At s n → Visible s) (h : Site absDir root fs w.fs) {v : Visit}
    (hv : v ∈ visits (some root)) (hfile : v.node.isDir = false)
    (hsep : ∀ hash, store.place hash ≠ v.target absDir)
    (hchunks : (assembled (store.blob w.fs) v.node.chunks).2 = true) :
    Prog.wp (handle answer) (fun _ => True) (reconstructFile store (v.path absDir) v.node)
      (fun r _ => r.2 = none) w := by
  unfold reconstructFile
  split
  · rfl
  next hne =>
  obtain ⟨s, hs', hn, htarget⟩ := at_of_mem_visits habs hroot hv
  obtain ⟨b, hb, hbdir⟩ := parent_of_at hroot hn hs'
  have hparent : resolve (dir (v.path absDir)) = resolve absDir ++ s.dropLast := by
    rw [Visit.resolve_dir_path habs, htarget, List.dropLast_append_of_ne_nil hs']
  -- The directory of the file can be made, then the file is opened and the chunks are copied.
  obtain ⟨fs₁, h₁⟩ := Os.mkdirAll_succeeds (h.noFile hroot hb hbdir) (perm w.umask 0o755)
  rw [← hparent] at h₁
  refine wp_change_ok h₁ ?_
  have hsite₁ : Site absDir root fs fs₁ := h.apply habs hroot hvis
    (c := .mkdirAll (dir (v.path absDir)) 0o755) ⟨_, b, hb, hbdir, hparent⟩ h₁
  obtain ⟨m, hm⟩ := Os.isDir_mkdirAll h₁
  rw [Visit.resolve_dir_path habs] at hm
  have hnodir : ∀ m, Os.view fs₁ (v.target absDir) ≠ some (.dir m) := by
    rw [htarget]
    exact hsite₁.room.files s v.node hn hfile hne
  obtain ⟨fs₂, h₂⟩ := Os.createTrunc_succeeds hm hnodir (perm w.umask 0o666)
  refine wp_change_ok h₂ ?_
  obtain ⟨hempty, helse⟩ := Os.content_createTrunc h₂
  have hblob : ∀ hash, store.blob fs₂ hash = store.blob w.fs hash :=
    fun hash => (helse _ (hsep hash)).trans (Os.content_mkdirAll h₁ _)
  refine Prog.wp_bind.2 (Prog.wp_mono (writeChunks_spec (w := { w with fs := fs₂ }) (c := []) hs
    hsep (fun _ _ => trivial) v.node.chunks hempty) ?_)
  rintro r _ ⟨fs₃, rfl, -, -, hr⟩
  obtain rfl := hr.2 (by rw [assembled_congr hblob]; exact hchunks)
  dsimp only
  split
  · exact wp_change (fun _ _ => ⟨trivial, rfl⟩) fun _ _ => ⟨trivial, rfl⟩
  · rfl

/-- A visit succeeds if the store has the chunks. -/
theorem wp_visit (habs : isAbs absDir) (hs : isAbs store.baseDir) (hroot : root.Orderly)
    (hvis : ∀ s n, root.At s n → Visible s) (h : Site absDir root fs w.fs) {v : Visit}
    (hv : v ∈ visits (some root)) (hsep : ∀ hash, store.place hash ≠ v.target absDir)
    (hchunks : (assembled (store.blob w.fs) v.node.chunks).2 = true) :
    Prog.wp (handle answer) (fun _ => True) (visit absDir store v) (fun r _ => r = none) w := by
  unfold visit
  split
  · next hdir =>
      obtain ⟨s, -, hn, htarget⟩ := at_of_mem_visits habs hroot hv
      obtain ⟨fs', hok⟩ := Os.mkdirAll_succeeds (h.noFile hroot hn hdir)
        (perm w.umask (v.node.mode ||| 0o755))
      rw [← htarget] at hok
      exact wp_change_ok hok rfl
  · next hdir =>
      rw [Bool.not_eq_true] at hdir
      refine Prog.wp_bind.2 (Prog.wp_mono
        (wp_reconstructFile habs hs hroot hvis h hv hdir hsep hchunks) fun r _ hr => hr)

theorem assembled_of_blobs {hashes : List Bytes}
    (h : ∀ hash ∈ hashes, ∃ c, store.blob fs hash = some c) :
    (assembled (store.blob fs) hashes).2 = true := by
  induction hashes with
  | nil => rfl
  | cons hash hashes ih =>
    rw [List.forall_mem_cons] at h
    obtain ⟨c, hc⟩ := h.1
    simp only [assembled, hc]
    exact ih h.2

/-- The store of a site is the one it had. -/
theorem Site.blob (h : Site absDir root fs fs₁) (hash : Bytes) :
    (storeOf absDir).blob fs₁ hash = (storeOf absDir).blob fs hash :=
  Os.content_of_view (h.store _ (List.prefix_append _ _))

/-- **A manifest is built where there is room for it**, from a store that has its chunks. -/
theorem wp_visitAll (habs : isAbs absDir) (hroot : Advertised root) {vs : List Visit}
    (hvs : ∀ v ∈ vs, v ∈ visits (some root))
    (hchunks : ∀ v ∈ vs, ∀ hash ∈ v.node.chunks, ∃ c, (storeOf absDir).blob fs hash = some c)
    (h : Site absDir root fs w.fs) :
    Prog.wp (handle answer) (fun w' => Site absDir root fs w'.fs)
      (visitAll absDir (storeOf absDir) vs)
      (fun r w' => r = none ∧ Site absDir root fs w'.fs) w := by
  induction vs generalizing w with
  | nil => exact ⟨rfl, h⟩
  | cons v vs ih =>
    rw [List.forall_mem_cons] at hvs hchunks
    have hvis : ∀ s n, root.At s n → Visible s := fun s n hn => hroot.visible hn
    have hkeeps := Prog.wp_within (h := handle answer) (I := fun w' => Site absDir root fs w'.fs)
      (building_visit (storeOf absDir) habs hroot.orderly hvs.1)
      (fun o w' ho hw' => hw'.building habs hroot.orderly hvis ho) h
    have hsep (hash : Bytes) : (storeOf absDir).place hash ≠ v.target absDir := by
      obtain ⟨s, -, hn, htarget⟩ := at_of_mem_visits habs hroot.orderly hvs.1
      rw [htarget]
      exact place_ne_visible habs (hvis s _ hn) hash
    have hdone : Prog.wp (handle answer) (fun _ => True) (visit absDir (storeOf absDir) v)
        (fun r _ => r = none) w :=
      wp_visit habs (isAbs_storageDir habs) hroot.orderly hvis h hvs.1 hsep
        (assembled_of_blobs fun hash hmem => h.blob hash ▸ hchunks.1 hash hmem)
    refine Prog.wp_bind.2 (Prog.wp_mono (Prog.wp_and hkeeps hdone) ?_)
    rintro r w' ⟨hsite, rfl⟩
    exact ih hvs.2 hchunks.2 hsite

/-- What is removed is not of the manifest. -/
theorem Site.remove (habs : isAbs absDir) (h : Site absDir root fs fs₁) {s : List Bytes}
    (hs : Visible s) (hno : ∀ m, ¬ root.At s m)
    (hview : Os.view fs₂ = Function.update (Os.view fs₁) (resolve absDir ++ s) none) :
    Site absDir root fs fs₂ := by
  refine ⟨⟨fun t b hb hdir m c => ?_, fun t b hb hfile hne m => ?_⟩, ?_, fun q hq => ?_⟩
  · rw [hview, Function.update_apply]
    split
    · simp
    · exact h.room.dirs t b hb hdir m c
  · rw [hview, Function.update_apply]
    split
    · simp
    · exact h.room.files t b hb hfile hne m
  · obtain ⟨m, hm⟩ := h.dir
    refine ⟨m, ?_⟩
    rw [hview, Function.update_of_ne, hm]
    intro heq
    have hnil : s = [] := by simpa using heq
    exact hno root (hnil ▸ .here root)
  · rw [hview, Function.update_of_ne, h.store q hq]
    rintro rfl
    exact not_store_above habs hs hq

theorem wp_deleteAll (habs : isAbs absDir) {paths : List Bytes}
    (hdel : ∀ p ∈ paths, Absent absDir root p) (h : Site absDir root fs w.fs) :
    Prog.wp (handle answer) (fun w' => Site absDir root fs w'.fs) (deleteAll absDir paths)
      (fun _ w' => Site absDir root fs w'.fs) w := by
  induction paths generalizing w with
  | nil => exact h
  | cons p paths ih =>
    rw [List.forall_mem_cons] at hdel
    obtain ⟨s, hs, hres, hno⟩ := hdel.1
    refine wp_change (fun e _ => ⟨h, ih hdel.2 h⟩) fun fs' hok => ?_
    have h' : Site absDir root fs fs' := h.remove habs hs hno (hres ▸ Os.remove_ok hok)
    exact ⟨h', ih hdel.2 h'⟩

end Visits

/-! ### The sync completes -/

/-- The directory can receive the manifest. -/
structure Receptive (absDir : Bytes) (root : ManifestNode) (fs : Os.Fs) : Prop where
  tidy : (storeOf absDir).Tidy fs
  sound : (storeOf absDir).Sound fs
  room : Room absDir root fs

section Sync

variable {absDir : Bytes} {root : ManifestNode} {fs fs' : Os.Fs}

/-- A store is as tidy as what is below its directory. -/
theorem tidy_congr {s : BlobStore} (hs : isAbs s.baseDir)
    (h : ∀ q, resolve s.baseDir <+: q → Os.view fs' q = Os.view fs q) (ht : s.Tidy fs) :
    s.Tidy fs' := by
  have hplace (hash : Bytes) : Os.view fs' (s.place hash) = Os.view fs (s.place hash) :=
    h _ (List.prefix_append _ _)
  refine ⟨⟨?_, fun hash hne m => ?_⟩, fun hash hlen m c => ?_, fun hash hlen m => ?_⟩
  · rw [BlobStore.Holds, hplace]
    exact ht.ready.base
  · obtain ⟨d, c, -, htemp, -⟩ := BlobStore.place_eq_concat hs hne
    rw [h _ (by rw [htemp, List.append_assoc]; exact List.prefix_append _ _)]
    exact ht.ready.temp hash hne m
  · rw [hplace]
    exact ht.clear hash hlen m c
  · rw [hplace]
    exact ht.leaf hash hlen m

theorem Receptive.site (habs : isAbs absDir) (h : Receptive absDir root fs)
    (hsite : Site absDir root fs fs') : Receptive absDir root fs' where
  tidy := tidy_congr (isAbs_storageDir habs) hsite.store h.tidy
  sound := fun hash c hc => h.sound hash c (hsite.blob hash ▸ hc)
  room := hsite.room

theorem Receptive.grown (habs : isAbs absDir) (hvis : ∀ s n, root.At s n → Visible s)
    (h : Receptive absDir root fs) (hg : (storeOf absDir).Grown fs fs') :
    Receptive absDir root fs' where
  tidy := hg.tidy h.tidy
  sound := hg.sound h.sound
  room := by
    constructor
    · intro s n hn
      rw [hg.outside (not_store_above habs (hvis s n hn))]
      exact h.room.dirs s n hn
    · intro s n hn
      rw [hg.outside (not_store_above habs (hvis s n hn))]
      exact h.room.files s n hn

theorem Receptive.start (habs : isAbs absDir) (h : Receptive absDir root fs) :
    Site absDir root fs fs :=
  ⟨h.room, isDir_of_ready habs h.tidy.ready, fun _ _ => rfl⟩

/-- The chunks of a manifest have hashes of 32 bytes. -/
theorem Advertised.length_of_hasChunk (hroot : Advertised root) {hash : Bytes}
    (h : HasChunk root hash) : hash.length = 32 := by
  obtain ⟨name, m, es, hwf, rfl⟩ := hroot.eq_build
  obtain ⟨q, c, -, -, hmem⟩ := (hasChunk_buildNode hwf).1 h
  obtain ⟨k, hk, rfl⟩ := List.mem_map.1 hmem
  exact Cas.length_hash_of_mem_chunksOf hk

/-- What a node of a directory's manifest says of the entry it stands for. -/
theorem kind_of_at {e : Os.Entry} (he : e.WF) {name : Bytes} {q : List Bytes} {n : ManifestNode}
    (hn : (convertTreeToManifest (buildNode name e)).At q n) :
    (n.isDir = true ∧ n.chunks = [] ∧ IsDir (some e) q) ∨
      n.isDir = false ∧ ∃ c, Os.content (some e) q = some c ∧
        n.chunks = (chunksOf c).map (·.hash) := by
  obtain ⟨-, x, hx, rfl⟩ := (at_buildNode_iff he).1 hn
  cases x with
  | file m c => exact Or.inr ⟨rfl, c, Os.content_eq_some_iff_reach.2 ⟨m, hx⟩, rfl⟩
  | dir m es => exact Or.inl ⟨rfl, rfl, m, by rw [Os.view, hx]; rfl⟩

variable {ν : Type} {answer : Request → ν → Exchange × ν} {data : ν → Bytes → Option Bytes}
  {good : ν → Prop} {w : World ν}

/-- **A difference is applied** if the peer has what is listed and the rest is in the store. -/
theorem wp_applyDiff (hprov : Provider answer data good) (hgood : good w.net) (habs : isAbs absDir)
    (hroot : Advertised root) (h : Receptive absDir root w.fs) {d : Diff.DiffResult}
    (hdel : ∀ p ∈ d.deleted, Absent absDir root p)
    (hdata : ∀ hash, Lists d hash → data w.net hash ≠ none)
    (hcover : ∀ hash, HasChunk root hash → (storeOf absDir).Holds w.fs hash ∨ Lists d hash) :
    Prog.wp (handle answer) (fun w' => Receptive absDir root w'.fs)
      (applyDiff absDir (storeOf absDir) root d) (fun r w' => ∃ k w₁ w₂, r = .ok k ∧
        (storeOf absDir).Grown w.fs w₁.fs ∧
        (∀ hash, HasChunk root hash → ∃ c, (storeOf absDir).blob w₁.fs hash = some c) ∧
        (reconstructFiles absDir (some root) (storeOf absDir)).run (handle answer) w₁ =
          ((k, none), w₂) ∧
        w'.fs = (d.deleted.map (deletedPlace absDir)).foldl Os.tryRemove w₂.fs ∧
        Site absDir root w₁.fs w'.fs) w := by
  have hs : isAbs (storeOf absDir).baseDir := isAbs_storageDir habs
  have hvis : ∀ s n, root.At s n → Visible s := fun s n hn => hroot.visible hn
  rw [applyDiff_eq]
  -- The chunks that are missing.
  obtain ⟨needed, hrun, hneeded⟩ := mem_needed answer w hs d
  refine Prog.wp_bind.2 (Prog.wp_mono (Prog.wp_weaken (Prog.wp_record
    ((stocks_neededChunks d).wp hs h.tidy.ready.base)) fun w' hg => h.grown habs hvis hg) ?_)
  rintro hashes w' ⟨-, hrun'⟩
  obtain ⟨rfl, rfl⟩ := Prod.mk.inj (hrun.symm.trans hrun')
  -- They arrive.
  have hflat : (Blocks.blocks batchSize needed).flatten = needed :=
    Blocks.flatten_blocks (by decide) needed
  refine Prog.wp_bind.2 (Prog.wp_mono (Prog.wp_weaken (Prog.wp_and
    ((stocks_download (Blocks.blocks batchSize needed) 0).wp hs h.tidy.ready.base)
    (wp_download hprov hgood hs h.tidy
      (fun batch hb => (Blocks.length_of_mem_blocks (by decide) hb).2) ?_ 0))
    fun w' hg => h.grown habs hvis hg) ?_)
  · rw [hflat]
    exact fun hash hmem => hdata hash ((hneeded hash).1 hmem).1
  rintro ⟨k, e⟩ w₁ ⟨-, he, hg, hall⟩
  obtain rfl : e = none := he
  rw [hflat] at hall
  have h₁ := h.grown habs hvis hg
  have hblob : ∀ hash, HasChunk root hash → ∃ c, (storeOf absDir).blob w₁.fs hash = some c := by
    intro hash hhash
    refine h₁.tidy.blob_of_holds (by rw [hroot.length_of_hasChunk hhash]; decide) ?_
    rcases hcover hash hhash with hheld | hlists
    · exact hg.holds hheld
    · by_cases hheld : (storeOf absDir).Holds w.fs hash
      · exact hg.holds hheld
      · exact hall hash ((hneeded hash).2 ⟨hlists, hheld⟩)
  -- The files are written and the rest is removed.
  refine Prog.wp_weaken (I := fun w' => Site absDir root w₁.fs w'.fs) (Prog.wp_bind.2 ?_)
    fun w' hsite => h₁.site habs hsite
  refine Prog.wp_mono (Prog.wp_record (wp_reconstructFiles (Q := fun r w' => r = none ∧
    Site absDir root w₁.fs w'.fs) (wp_visitAll habs hroot (fun v hv => hv) ?_ (h₁.start habs)))) ?_
  · intro v hv hash hmem
    obtain ⟨s, -, hn, -⟩ := at_of_mem_visits habs hroot.orderly hv
    exact hblob hash ⟨s, v.node, hn, hmem⟩
  rintro ⟨written, fault⟩ w₂ ⟨⟨hfault, hsite⟩, hwritten⟩
  obtain rfl : fault = none := hfault
  refine Prog.wp_bind.2 (Prog.wp_mono (Prog.wp_record (wp_deleteAll habs hdel hsite)) ?_)
  rintro _ w' ⟨hsite', hw'⟩
  rw [run_deleteAll] at hw'
  obtain rfl := (Prod.mk.inj hw').2
  exact ⟨written, w₁, w₂, rfl, hg, hblob, hwritten, rfl, hsite'⟩

/-- The manifest of the directory does not depend on the store. -/
theorem manifest_of_grown (habs : isAbs absDir) (hg : (storeOf absDir).Grown fs fs') (hwf : fs.WF)
    (hwf' : fs'.WF) {e e' : Os.Entry} (he : Os.reach fs (resolve absDir) = some e)
    (he' : Os.reach fs' (resolve absDir) = some e') (name : Bytes) :
    buildNode name e' = buildNode name e := by
  refine Merkle.buildNode_of_view (Os.wf_reach hwf' _ _ he') (Os.wf_reach hwf _ _ he)
    (fun q hq => ?_) name
  rw [← view_of_reach he, ← view_of_reach he']
  exact hg.outside (not_store_above habs hq)

/-- What a directory stands in is a directory. -/
theorem isDir_above {p q : List Bytes} (h : IsDir fs p) (hq : q <+: p) : IsDir fs q := by
  by_cases heq : q = p
  · exact heq ▸ h
  · obtain ⟨m, hm⟩ := h
    exact Os.view_dir_above hq heq (by simp [hm])

/-- The directory of a tidy store. -/
theorem isDir_store (ht : (storeOf absDir).Tidy fs) : IsDir fs (resolve (storageDir absDir)) := by
  obtain ⟨k, hk⟩ := Option.ne_none_iff_exists'.1 ht.ready.base
  have hbase : (storeOf absDir).place [] = resolve (storageDir absDir) := by
    simp [BlobStore.place, BlobStore.loc]
  cases k with
  | file m c => exact (ht.clear [] (by simp) m c hk).elim
  | dir m => exact ⟨m, hbase ▸ hk⟩

theorem storageDir_ne_nil (habs : isAbs absDir) : storageDir absDir ≠ [] := by
  intro h
  have := isAbs_storageDir habs
  simp [h, isAbs] at this

theorem wp_newBlobStore_ready {I : World ν → Prop} {Q : Except Err BlobStore → World ν → Prop}
    (habs : isAbs absDir) (ht : (storeOf absDir).Tidy w.fs) (hI : I w)
    (hQ : Q (.ok (storeOf absDir)) w) :
    Prog.wp (handle answer) I (newBlobStore (storageDir absDir)) Q w := by
  obtain ⟨m, hm⟩ := isDir_store ht
  unfold newBlobStore
  rw [if_neg (storageDir_ne_nil habs)]
  have hok (mode : UInt32) : Os.mkdirAll w.fs (resolve (storageDir absDir)) mode = .ok w.fs :=
    Os.mkdirAll_of_dir hm mode
  refine wp_change (fun e he => ?_) fun fs' hfs' => ?_
  · rw [Change.apply, hok] at he
    cases he
  · rw [Change.apply, hok] at hfs'
    cases hfs'
    exact ⟨hI, hQ⟩

/-- A sync comes down to applying the difference between the two manifests, with every chunk of
the directory in the store. -/
theorem wp_syncCmd {I : World ν → Prop} {Q : Go Synced → World ν → Prop}
    (ord : Diff.DiffOrder) {peer : Net.Peer}
    (hpeer : ∀ root ∈ peer.merkleRoot, 8 ≤ Allocator.cap root.length)
    (hhome : Home absDir w.fs) {m : UInt32} {es : List (Bytes × Os.Entry)}
    (hreach : Os.reach w.fs (resolve absDir) = some (.dir m es))
    (hreply : manifestReply (answer .manifest w.net).1 = .ok ⟨some root⟩)
    (hI : ∀ w', (storeOf absDir).Grown w.fs w'.fs → I w')
    (hrest : ∀ w₁ here, here = convertTreeToManifest (buildNode (base absDir) (.dir m es)) →
      (storeOf absDir).Grown w.fs w₁.fs → w₁.fs.WF → w₁.net = (answer .manifest w.net).2 →
      (∀ hash, HasChunk here hash → (storeOf absDir).Holds w₁.fs hash) →
      Prog.wp (handle answer) I
        (applyDiff absDir (storeOf absDir) root (Diff.diffNode ord [] here root []))
        (fun r w' => Q (r.map .complete) w') w₁) :
    Prog.wp (handle answer) I (syncCmd ord (.ok peer) absDir) Q w := by
  have hs : isAbs (storeOf absDir).baseDir := isAbs_storageDir hhome.abs
  have hhere : I w := hI w (.refl _ _)
  have hout : ∀ q, Visible q → ¬ resolve (storeOf absDir).baseDir <+: resolve absDir ++ q :=
    fun q hq => not_store_above hhome.abs hq
  refine wp_stat.2 ⟨hhere, ?_⟩
  split
  · next hstat =>
      have hnone := Os.reach_of_stat_error hstat
      refine (hhome.tidy.ready.base ?_).elim
      simp [BlobStore.place, BlobStore.loc, Os.view, hnone]
  refine Prog.wp_bind.2 (wp_newBlobStore_ready hhome.abs hhome.tidy hhere ?_)
  refine Prog.wp_bind.2 (Prog.wp_mono (Prog.wp_weaken (Prog.wp_and
    ((stocks_indexDirectory absDir).wp hs hhome.tidy.ready.base)
    (wp_wf (wp_indexDirectory hhome.abs hs hout hhome.wf hhome.tidy.ready hhome.tidy.clear)
      hhome.wf)) fun w' hg => hI w' hg) ?_)
  rintro _ _ ⟨hg, ⟨fs₁, cs, rfl, hst, hhash, hcs⟩, hwf₁⟩
  have hI₁ := hI { w with fs := fs₁ } hg
  refine Prog.wp_bind.2 (Merkle.wp_buildFromFS hI₁ (fun m₁ es₁ hreach₁ => ?_) fun hno => ?_)
  · have hsame := manifest_of_grown hhome.abs hg hhome.wf hwf₁ hreach hreach₁ (base absDir)
    rw [hsame]
    dsimp only
    rw [printsRoots_ok (le_length_hash_root absDir m es) hpeer]
    refine wp_exchange.2 ⟨hI _ hg, ?_⟩
    rw [hreply]
    refine Prog.wp_bind.2 (Prog.wp_mono (hrest _ _ rfl hg hwf₁ rfl ?_) ?_)
    · intro hash hhash
      obtain ⟨q, c, hq, hc, hmem⟩ :=
        (hasChunk_buildNode (Os.wf_reach hhome.wf _ _ hreach)).1 hhash
      obtain ⟨k, hk, rfl⟩ := List.mem_map.1 hmem
      rw [← content_of_reach hreach] at hc
      exact (hst.holds_iff hs _).2 (Or.inr ⟨k, (hcs k).2 ⟨hhome.shown, q, c, hq, hc, hk⟩,
        List.prefix_refl _⟩)
    · intro r w' hQ
      cases r <;> exact hQ
  · obtain ⟨m', hm'⟩ := isDir_of_ready hhome.abs (hg.tidy hhome.tidy).ready
    obtain ⟨es', hes'⟩ := Os.stat_of_view_dir hm'
    exact (hno m' es' (Os.stat_ok.1 hes')).elim

/-- A chunk of the manifest is in the store or listed. -/
theorem held_or_listed (hwf : fs.WF) (hroot : Advertised root)
    (hroom : Room absDir root fs) {m : UInt32} {es : List (Bytes × Os.Entry)}
    (hreach : Os.reach fs (resolve absDir) = some (.dir m es)) {here : ManifestNode}
    (hhere : here = convertTreeToManifest (buildNode (base absDir) (.dir m es)))
    (hsame : SameChunks here root) {holds : Bytes → Prop}
    (hstored : ∀ hash, HasChunk here hash → holds hash) (ord : Diff.DiffOrder) {hash : Bytes}
    (hhash : HasChunk root hash) :
    holds hash ∨ Lists (Diff.diffNode ord [] here root []) hash := by
  have he := Os.wf_reach hwf _ _ hreach
  have hlocal : here.Orderly := hhere ▸ orderly_buildNode he _
  have hindexed : Indexed holds (some here) root := by
    refine ⟨fun a ha => ?_, hroot.orderly.distinct, fun a ha => ?_, fun a ha => ?_⟩
    · exact Option.some.inj ha ▸ hlocal.distinct
    · exact Option.some.inj ha ▸ hstored
    · exact Option.some.inj ha ▸ hsame
  obtain ⟨q, n, hn, hmem⟩ := hhash
  have hd : Diff.diffTrees ord (some here) (some root) = .ok (Diff.diffNode ord [] here root []) :=
    rfl
  refine (hindexed.lists_iff hd hash).2 (Or.inr ⟨q, n, hn, hmem, ?_⟩)
  have hfile : n.isDir = false := by
    obtain ⟨name, m', es', hwf', rfl⟩ := hroot.eq_build
    rcases kind_of_at hwf' hn with ⟨-, hnil, -⟩ | ⟨hfile, -⟩
    · simp [hnil] at hmem
    · exact hfile
  by_cases hthere : ∃ a, here.At q a
  · obtain ⟨a, ha⟩ := hthere
    subst hhere
    rcases kind_of_at he ha with ⟨-, -, m', hm'⟩ | ⟨hafile, -⟩
    · rw [← view_of_reach hreach] at hm'
      exact (hroom.files q n hn hfile (List.ne_nil_of_mem hmem) m' hm').elim
    · exact Or.inr ⟨q, List.prefix_rfl, ⟨_, rfl, a, ha, hafile⟩, n, hn, hfile⟩
  · refine Or.inl fun a ha b hb => hthere ⟨b, ?_⟩
    rwa [Option.some.inj ha]

/-- What a completed sync did: it filled the store, wrote the files of the manifest and removed what
the manifest lacks. -/
structure Course (answer : Request → ν → Exchange × ν) (ord : Diff.DiffOrder) (absDir : Bytes)
    (here root : ManifestNode) (w w' : World ν) (k : ℕ) : Prop where
  applied : ∃ w₁, (storeOf absDir).Grown w.fs w₁.fs ∧ w₁.fs.WF ∧
    (applyDiff absDir (storeOf absDir) root (Diff.diffNode ord [] here root [])).run
      (handle answer) w₁ = (.ok k, w')
  written : ∃ w₁ w₂, (storeOf absDir).Grown w.fs w₁.fs ∧
    (∀ hash, HasChunk root hash → ∃ c, (storeOf absDir).blob w₁.fs hash = some c) ∧
    (reconstructFiles absDir (some root) (storeOf absDir)).run (handle answer) w₁ =
      ((k, none), w₂) ∧
    w'.fs = ((Diff.diffNode ord [] here root []).deleted.map (deletedPlace absDir)).foldl
      Os.tryRemove w₂.fs ∧
    Site absDir root w₁.fs w'.fs

/-- **A sync completes** if its peer is a provider and nothing is in the way of the manifest; after
each of its calls the directory can receive the manifest. -/
theorem wp_sync (ord : Diff.DiffOrder) {peer : Net.Peer}
    (hpeer : ∀ root ∈ peer.merkleRoot, 8 ≤ Allocator.cap root.length)
    (hprov : Provider answer data good) (hgood : good w.net) (hhome : Home absDir w.fs)
    (hserved : servedRoot answer w.net = some root) (hroom : Room absDir root w.fs)
    {m : UInt32} {es : List (Bytes × Os.Entry)}
    (hreach : Os.reach w.fs (resolve absDir) = some (.dir m es)) {here : ManifestNode}
    (hhere : here = convertTreeToManifest (buildNode (base absDir) (.dir m es)))
    (hsame : SameChunks here root) :
    Prog.wp (handle answer) (fun w' => Receptive absDir root w'.fs) (syncCmd ord (.ok peer) absDir)
      (fun r w' => ∃ k, r = .ok (.complete k) ∧ Course answer ord absDir here root w w' k) w := by
  obtain ⟨root', hreply, hroot, hdata⟩ := hprov.manifest hgood
  obtain rfl : root' = root := by simpa [servedRoot, hreply] using hserved
  have hvis : ∀ s n, root'.At s n → Visible s := fun s n hn => hroot.visible hn
  have h : Receptive absDir root' w.fs := ⟨hhome.tidy, hhome.sound, hroom⟩
  have hlocal : Advertised here := hhere ▸ advertised_of_reach w.fs absDir hhome.wf hreach
  refine wp_syncCmd ord hpeer hhome hreach hreply (fun w' hg => h.grown hhome.abs hvis hg) ?_
  rintro w₁ _ rfl hg hwf₁ hnet₁ hstored
  rw [← hhere] at hstored ⊢
  refine Prog.wp_mono (Prog.wp_record (wp_applyDiff hprov
    (hnet₁ ▸ hprov.stays .manifest hgood trivial) hhome.abs hroot
    (h.grown hhome.abs hvis hg) ?_ ?_ ?_)) ?_
  · exact fun p hp => absent_of_deleted hhome.abs hlocal hroot.orderly hp
  · intro hash hlists
    rw [hnet₁]
    obtain ⟨q, n, hn, hmem, -⟩ :=
      fetched_of_lists hlocal.orderly.distinct hroot.orderly.distinct hlists
    exact hdata hash ⟨q, n, hn, hmem⟩
  · intro hash hhash
    exact held_or_listed hhome.wf hroot hroom hreach hhere hsame hstored ord hhash
  · rintro _ w' ⟨⟨k, w₂, w₃, rfl, hg', hblob, hwritten, hdeleted⟩, hrun⟩
    exact ⟨k, rfl, ⟨w₁, hg, hwf₁, hrun⟩, w₂, w₃, hg.trans hg', hblob, hwritten, hdeleted⟩

end Sync

end FileSync.Cli
