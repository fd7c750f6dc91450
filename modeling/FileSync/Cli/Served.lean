import FileSync.Cli.Index
import FileSync.Cli.LinkedStore

/-!
# Cli — the chunks that are advertised

`serve` puts the chunks of a directory into its store with `indexDirectory` and advertises the tree
that `BuildFromFS` makes of it (`cmd/p2p-file-sync/main.go`, `internal/merkle/build.go`).  The two
walk the directory in ways of their own.  Below it they find the same files; the directory itself
`filepath.Walk` passes to the callback and looks at with `lstat`, so that nothing is put if its name
starts with a dot or is a link, while `BuildFromFS` looks at it with `stat` and at no name.

* `mentions_iff`: the hashes of the tree are those of the files that visible names lead to.
* `Hosted`: a store that a directory can be put into.  No visible name below the directory leads
  into the store.
* `served_iff`: when every advertised chunk is in the store.
-/

open Sha256 Filepath

namespace FileSync.Cli

open Proto (Request Exchange)
open Cas (BlobStore Chunk chunksOf)
open Merkle (Visible buildFromFS)
open Os.Linked (Fs Kind view Below)

/-! ### What is held -/

/-- `Has` answers that there is something under the hash. -/
def LinkedHolds (s : BlobStore) (fs : Fs) (hash : Bytes) : Prop :=
  ∃ e, fs.lookup (s.place hash) = .ok e

/-- The blob under the hash has it. -/
def Genuine (s : BlobStore) (fs : Fs) (hash : Bytes) : Prop :=
  ∃ c, linkedBlob s fs hash = some c ∧ (sum256 c).bytes = hash

section Store

variable {ν : Type} {s : BlobStore} {d : List Bytes} {w w' : LinkedWorld ν} {t t' : World ν}

theorem Likewise.holds (h : Likewise s d w t) (hash : Bytes) :
    LinkedHolds s w.fs hash ↔ s.Holds t.fs hash := by
  have hplain : ∀ c ∈ BlobStore.loc hash, Plain c := fun _ => BlobStore.plain_of_mem_loc
  have hholds : s.Holds t.fs hash ↔ ∃ x, Os.stat t.fs (s.place hash) = .ok x := by
    simp only [BlobStore.Holds, Os.view, Os.stat_ok]
    cases Os.reach t.fs (s.place hash) <;> simp
  rw [LinkedHolds, hholds]
  rcases h.shadow.found hplain with ⟨e, hl, hst⟩ | ⟨i, -, hl, hst⟩ | ⟨m, es, es', -, hl, hst⟩
  · refine iff_of_false ?_ ?_
    · rintro ⟨x, hx⟩
      cases hl.symm.trans hx
    · rintro ⟨x, hx⟩
      cases hst.symm.trans hx
  · exact iff_of_true ⟨_, hl⟩ ⟨_, hst⟩
  · exact iff_of_true ⟨_, hl⟩ ⟨_, hst⟩

/-- After honest puts a hash is genuine if it was, or if it was vacant and put. -/
theorem genuine_after_iff (hs : isAbs s.baseDir) (h : Likewise s d w t) (h' : Likewise s d w' t')
    {cs : List Chunk} (hst : s.Stored t.fs cs t'.fs)
    (hhash : ∀ c ∈ cs, (sum256 c.data).bytes = c.hash) {hash : Bytes} (hlen : 2 ≤ hash.length) :
    Genuine s w'.fs hash ↔
      (LinkedHolds s w.fs hash → Genuine s w.fs hash) ∧
        (¬ LinkedHolds s w.fs hash → ∃ c ∈ cs, c.hash = hash) := by
  simp only [Genuine, h.holds, h.blob, h'.blob]
  by_cases hh : s.Holds t.fs hash
  · simp [hh, hst.blob_of_holds hs hh]
  · simp only [hh, false_imp_iff, not_false_eq_true, true_imp_iff, true_and]
    constructor
    · rintro ⟨c, hc, -⟩
      obtain ⟨m, hm⟩ := Os.content_eq_some.1 hc
      have hheld : s.Holds t'.fs hash := by simp [BlobStore.Holds, hm]
      rcases (hst.holds_iff hs hash).1 hheld with h | ⟨k, hk, hbelow⟩
      · exact (hh h).elim
      · exact ⟨k, hk, (s.eq_of_place_below hlen hbelow).symm⟩
    · intro hput
      obtain ⟨c, hc, rfl, hb⟩ := hst.blob_new hs hlen hh hput
      exact ⟨c.data, hb, hhash c hc⟩

end Store

/-! ### What is advertised -/

section Advertised

variable {ν : Type} {peer : Request → ν → Exchange × ν} {dir : Bytes} {w : LinkedWorld ν}

/-- A name at `q` below the place of the directory that is no directory, and what it leads to. -/
structure Named (fs : Fs) (dir : Bytes) (r q : List Bytes) (c : Bytes) : Prop where
  visible : Visible q
  name : ∃ k, view fs.root (r ++ q) = some k ∧ ∀ m, k ≠ .dir m
  content : fs.content (resolve dir ++ q) = some c

/-- **The hashes of the tree** are those of the files that visible names lead to. -/
theorem mentions_iff (hwf : w.fs.WF) {t : Merkle.Tree}
    (ht : ((buildFromFS dir).run (handleLinked peer) w).1 = .ok t) :
    ∃ r m, w.fs.place (resolve dir) = .ok r ∧ view w.fs.root r = some (.dir m) ∧
      ∀ hash, t.Mentions hash ↔
        ∃ q c, Named w.fs dir r q c ∧ ∃ k ∈ chunksOf c, k.hash = hash := by
  obtain ⟨m, es, es', hl, hs, rfl⟩ := buildFromFS_eq_ok ht
  obtain ⟨r, hr, hdir⟩ := Fs.lookup_eq_ok.1 hl
  have hreach (q : List Bytes) : Os.Linked.reach w.fs.root (r ++ q) =
      Os.Linked.reach (some (.dir m es)) q := by
    rw [Os.Linked.reach_append, hdir]
  have hentry : (Os.Entry.dir m es').WF := wf_seen (Fs.wf_lookup hwf hl) hs
  have hplain {q : List Bytes} {x : Os.Linked.Entry}
      (hx : Os.Linked.reach (some (.dir m es)) q = some x) : ∀ c ∈ q, Plain c :=
    (Os.Linked.wf_reach (Fs.wf_lookup hwf hl) hx).2
  refine ⟨r, m, hr, Os.Linked.view_eq_dir.2 ⟨es, hdir⟩, fun hash => ?_⟩
  have hroot : Merkle.Tree.Mentions ⟨some (Merkle.buildNode (base dir) (.dir m es'))⟩ hash ↔
      (Merkle.buildNode (base dir) (.dir m es')).Mentions hash := by
    simp [Merkle.Tree.Mentions]
  rw [hroot, Merkle.mentions_buildNode hentry]
  simp only [List.mem_map]
  constructor
  · rintro ⟨c, ⟨q, m', hvis, hq⟩, hk⟩
    obtain ⟨-, x, hx, hseen⟩ := (reach_seen_iff hs).1 hq
    refine ⟨q, c, ⟨hvis, ⟨x.kind, ?_, ?_⟩, Fs.content_eq_some.2 ?_⟩, hk⟩
    · rw [view, hreach, hx]
      rfl
    · rcases seen_eq_file hseen with ⟨ino, rfl, -⟩ | ⟨⟨text, rfl⟩, -⟩
      · simp [Os.Linked.Entry.kind]
      · simp [Os.Linked.Entry.kind]
    · rcases seen_eq_file hseen with ⟨ino, rfl, -, rfl⟩ | ⟨-, -, hread⟩
      · exact Fs.read_eq_ok.2 ⟨ino, Fs.lookup_append hl (hplain hx) hx trivial, rfl⟩
      · exact hread
  · rintro ⟨q, c, ⟨hvis, ⟨k, hview, hk⟩, hc⟩, hmem⟩
    rw [view, hreach, Option.map_eq_some_iff] at hview
    obtain ⟨x, hx, rfl⟩ := hview
    have hread := Fs.content_eq_some.1 hc
    have hseen : ∃ m', seen w.fs (resolve dir ++ q) x = .ok (.file m' c) := by
      cases x with
      | file ino =>
        obtain ⟨i, hi, rfl⟩ := Fs.read_eq_ok.1 hread
        cases (Fs.lookup_append hl (hplain hx) hx trivial).symm.trans hi
        exact ⟨_, by rw [seen]⟩
      | link text => exact ⟨Os.Linked.linkMode, by rw [seen, hread]; rfl⟩
      | dir m' es'' => exact (hk m' rfl).elim
    obtain ⟨m', hseen⟩ := hseen
    exact ⟨c, ⟨q, m', hvis, (reach_seen_iff hs).2 ⟨hvis, x, hx, hseen⟩⟩, hmem⟩

end Advertised

/-! ### What is put -/

/-- The store's directory, at `d`, holds files and directories of the store only, nothing is in the
way of a chunk, and no visible name below `dir` leads into it. -/
structure Hosted (s : BlobStore) (dir : Bytes) (d : List Bytes) (fs : Fs) : Prop where
  clean : IsClean dir
  cleanStore : IsClean s.baseDir
  sealed : Os.Linked.Sealed (resolve s.baseDir) d fs
  temp : ∀ hash, hash ≠ [] → ∀ m es, fs.lookup (s.temp hash) ≠ .ok (.dir m es)
  clear : ∀ hash : Bytes, hash.length ≤ 1 → ∀ ino, fs.lookup (s.place hash) ≠ .ok (.file ino)
  outside : ∀ q, Visible q → fs.Outside d (resolve dir ++ q)

section Hosted

variable {ν : Type} {peer : Request → ν → Exchange × ν} {s : BlobStore} {dir : Bytes}
  {d : List Bytes} {w w' : LinkedWorld ν}

/-- A store goes as one without links that can be put into. -/
theorem Hosted.likewise (h : Hosted s dir d w.fs) :
    ∃ t, Likewise s d w t ∧ s.Ready t.fs ∧ s.Clear t.fs := by
  obtain ⟨m, hm⟩ := h.sealed.base
  obtain ⟨es, hdir⟩ := Os.Linked.view_eq_dir.1 hm
  have hlike : Likewise s d w ⟨_, w.umask, w.net⟩ := ⟨h.sealed.shadow hdir, rfl, rfl⟩
  refine ⟨_, hlike, ⟨?_, fun hash hne m' hm' => ?_⟩, fun hash hlen m' c hc => ?_⟩
  · rw [← hlike.holds, LinkedHolds, BlobStore.place, BlobStore.loc, List.append_nil]
    exact ⟨_, Fs.lookup_eq_ok.2 ⟨d, h.sealed.place, hdir⟩⟩
  · obtain ⟨e, c, -, htemp, -⟩ := BlobStore.place_eq_concat h.cleanStore.abs hne
    have hplain : ∀ n ∈ e ++ [Hex.encode c ++ Cas.tmpSuffix], Plain n := fun n hn =>
      plain_of_mem_resolve (s := s.chunkPath (Hex.encode hash) ++ Cas.tmpSuffix) (by
        rw [← BlobStore.temp, htemp, List.append_assoc]
        exact List.mem_append_right _ hn)
    rw [List.append_assoc] at htemp
    have hnot := h.temp hash hne
    obtain ⟨es', hst⟩ := Os.stat_of_view_dir hm'
    rw [htemp] at hnot hst
    rcases hlike.shadow.found hplain with ⟨x, -, hst'⟩ | ⟨i, -, -, hst'⟩ | ⟨m₁, -, es₁, -, hl, -⟩
    · cases hst.symm.trans hst'
    · cases hst.symm.trans hst'
    · exact hnot m₁ es₁ hl
  · have hplain : ∀ n ∈ BlobStore.loc hash, Plain n := fun _ => BlobStore.plain_of_mem_loc
    have hst := Os.stat_of_view_file hc
    rcases hlike.shadow.found hplain with ⟨x, -, hst'⟩ | ⟨i, -, hl, -⟩ | ⟨m₁, es₁, -, -, -, hst'⟩
    · cases hst.symm.trans hst'
    · exact h.clear hash hlen i hl
    · cases hst.symm.trans hst'

/-- Names that the walk passes are not in the store. -/
theorem Hosted.away (h : Hosted s dir d w.fs) {r : List Bytes}
    (hr : w.fs.place (resolve dir) = .ok r) {q : List Bytes} (hvis : Visible q)
    (hq : ∀ c ∈ q, Plain c) : ¬ Below d (r ++ q) := by
  rintro ⟨x, hx, heq⟩
  -- The walk comes to the store's directory, from where the next name is below it.
  have key {y : List Bytes} (hd : d = r ++ y) (hq' : q = y ++ x) : False := by
    obtain ⟨c, x, rfl⟩ := List.exists_cons_of_ne_nil hx
    subst hq'
    rw [List.forall_mem_append, List.forall_mem_cons] at hq
    have hvis' : Visible (y ++ [c]) := by
      rw [Visible, List.forall_mem_append, List.forall_mem_cons] at hvis
      exact List.forall_mem_append.2 ⟨hvis.1, List.forall_mem_singleton.2 hvis.2.1⟩
    obtain ⟨m', hm'⟩ := h.sealed.base
    obtain ⟨es', hdir'⟩ := Os.Linked.view_eq_dir.1 hm'
    have hplace : w.fs.place (resolve dir ++ y) = .ok d := by
      rw [hd] at hdir' ⊢
      exact Os.Linked.follow_append
        (fun jump => Os.Linked.walk_of_reach jump hq.1 hdir' trivial) _ hr
    have hnext : w.fs.place (resolve dir ++ (y ++ [c])) = .ok (d ++ [c]) := by
      rw [← List.append_assoc]
      exact Fs.place_eq_ok.2 ((Fs.place_eq_ok.1 hplace).concat hq.2.1 hm' (h.sealed.noLink [c]))
    exact (h.outside _ hvis').away _ hnext ⟨[c], by simp, rfl⟩
  rcases List.append_eq_append_iff.1 heq with ⟨y, hd, hq'⟩ | ⟨y, hr', hx'⟩
  · exact key hd hq'
  · rcases eq_or_ne y [] with rfl | hy
    · exact key (y := []) (by simpa using hr'.symm) (by simpa using hx'.symm)
    · have hout := h.outside [] (by simp [Visible])
      rw [List.append_nil] at hout
      exact hout.away r hr ⟨y, hy, hr'⟩

/-- What the walk relies on is the case. -/
theorem Hosted.putting (h : Hosted s dir d w.fs) :
    Putting (handleLinked peer) s (resolve dir) Visible (fun q => w.fs.content (resolve dir ++ q))
      (fun c => (sum256 c.data).bytes = c.hash)
      (fun w₁ : LinkedWorld ν => w.Keeps d w₁ ∧
        ∃ t, Likewise s d w₁ t ∧ s.Ready t.fs ∧ s.Clear t.fs)
      (fun w₁ cs w₂ => w₁.Keeps d w₂ ∧ ∀ t, Likewise s d w₁ t → s.Ready t.fs → s.Clear t.fs →
        ∃ t', Likewise s d w₂ t' ∧ s.Stored t.fs cs t'.fs ∧ s.Ready t'.fs ∧ s.Clear t'.fs) where
  nil w₁ := ⟨.refl d w₁, fun t ht hready hclear => ⟨t, ht, .nil, hready, hclear⟩⟩
  append w₁ cs w₂ ds w₃ hcs hds := by
    refine ⟨hcs.1.trans hds.1, fun t ht hready hclear => ?_⟩
    obtain ⟨t₂, ht₂, hst, hready₂, hclear₂⟩ := hcs.2 t ht hready hclear
    obtain ⟨t₃, ht₃, hst', hend⟩ := hds.2 t₂ ht₂ hready₂ hclear₂
    exact ⟨t₃, ht₃, hst.append hst', hend⟩
  keeps w₁ cs w₂ hw₁ hT _ := by
    obtain ⟨hkeeps, t, ht, hready, hclear⟩ := hw₁
    obtain ⟨t', ht', -, hend⟩ := hT.2 t ht hready hclear
    exact ⟨hkeeps.trans hT.1, t', ht', hend⟩
  put w₁ c hw₁ hhash := by
    obtain ⟨-, t₀, ht₀, hready₀, hclear₀⟩ := hw₁
    have hlen : 2 ≤ c.hash.length := by
      rw [← hhash, (sum256 c.data).length_bytes]
      decide
    have hput {t : World ν} (ht : Likewise s d w₁ t) : RunsAlike peer s d w₁ t (s.put c) :=
      ht.put h.cleanStore.abs hlen
    obtain ⟨new, fs', hrun, -⟩ := run_put_ready h.cleanStore.abs hready₀ hclear₀ c
    refine ⟨new, _, Prod.ext ((hput ht₀).1.trans (by rw [hrun])) rfl, (hput ht₀).2.2, ?_⟩
    intro t ht hready hclear
    obtain ⟨new', fs'', hrun', hst⟩ := @run_put_ready _ peer _ h.cleanStore.abs _ hready hclear c
    have hlike := (hput ht).2.1
    rw [hrun'] at hlike
    exact ⟨_, hlike, hst, hst.ready h.cleanStore.abs hready,
      hst.clear h.cleanStore.abs (List.forall_mem_singleton.2 hlen) hclear⟩
  chunks _ _ _ _ _ := Cas.hash_of_mem_chunksOf
  found w₁ q c path hw₁ hq hpath hc := by
    refine answers_of_read ?_
    rw [hpath, hw₁.1.frame.content (h.outside q hq), hc]
  lost w₁ q path hw₁ hq hpath hc := by
    refine answers_of_not_read ?_
    rw [hpath, hw₁.1.frame.content (h.outside q hq), hc]

/-- **What `indexDirectory` puts**. -/
theorem Hosted.run_indexDirectory (h : Hosted s dir d w.fs) :
    ∃ n cs w', (indexDirectory dir s).run (handleLinked peer) w = (n, w') ∧ w.Keeps d w' ∧
      (∃ t t', Likewise s d w t ∧ Likewise s d w' t' ∧ s.Stored t.fs cs t'.fs) ∧
      (∀ c ∈ cs, (sum256 c.data).bytes = c.hash) ∧
      ∀ k, k ∈ cs ↔ Merkle.hidden (base dir) = false ∧ ∃ e c, w.fs.lstat (resolve dir) = .ok e ∧
        Finds (fun q => w.fs.content (resolve dir ++ q)) e [] c ∧ k ∈ chunksOf c := by
  obtain ⟨t, ht, hready, hclear⟩ := h.likewise
  have hwf (e : Os.Entry) (he : w.fs.lstat (resolve dir) = .ok e) : e.WF := by
    rw [Fs.lstat] at he
    cases hx : w.fs.lookupName (resolve dir) with
    | error x =>
      rw [hx] at he
      cases he
    | ok x =>
      rw [hx] at he
      cases he
      exact Os.Linked.wf_listed (Fs.wf_lookupName h.sealed.wf hx)
  obtain ⟨n, cs, w', hrun, ⟨hkeeps, hT⟩, hhash, hcs⟩ := h.putting.indexDirectory h.clean.abs rfl
    ⟨.refl d w, t, ht, hready, hclear⟩ (r := w.fs.lstat (resolve dir)) rfl hwf
    (fun _ _ _ _ _ hvis _ => hvis)
  obtain ⟨t', ht', hst, -⟩ := hT t ht hready hclear
  exact ⟨n, cs, w', hrun, hkeeps, ⟨t, t', ht, ht', hst⟩, hhash, hcs⟩

/-- The walk finds the files that visible names lead to, unless it begins at a link. -/
theorem finds_lstat_iff {r : List Bytes} {m : UInt32} (hr : w.fs.place (resolve dir) = .ok r)
    (hdir : view w.fs.root r = some (.dir m)) {c : Bytes} :
    (∃ e, w.fs.lstat (resolve dir) = .ok e ∧
      Finds (fun q => w.fs.content (resolve dir ++ q)) e [] c) ↔
      Unlinked w.fs dir ∧ ∃ q, Named w.fs dir r q c := by
  obtain ⟨es, hes⟩ := Os.Linked.view_eq_dir.1 hdir
  have hl : w.fs.lookup (resolve dir) = .ok (.dir m es) := Fs.lookup_eq_ok.2 ⟨r, hr, hes⟩
  obtain ⟨x, hx, hkind⟩ := Fs.lookupName_of_lookup (fun _ => plain_of_mem_resolve) hl
  have hlstat : w.fs.lstat (resolve dir) = .ok (Os.Linked.listed w.fs.inodes x) := by
    rw [Fs.lstat, hx]
    rfl
  simp only [hlstat, Except.ok.injEq, exists_eq_left']
  rcases hkind with rfl | ⟨text, rfl⟩
  · have hlisted (q : List Bytes) : Os.reach (some (Os.Linked.listed w.fs.inodes (.dir m es))) q =
        (Os.Linked.reach w.fs.root (r ++ q)).map (Os.Linked.listed w.fs.inodes) := by
      rw [Os.Linked.reach_append, hes]
      exact Os.Linked.reach_listed (some (.dir m es)) q
    have hlink : Unlinked w.fs dir := fun text htext => by cases hx.symm.trans htext
    refine Iff.trans ?_ (and_iff_right hlink).symm
    refine exists_congr fun q => ⟨?_, ?_⟩
    · rintro ⟨m', c', hvis, hreach, hc⟩
      rw [hlisted, Option.map_eq_some_iff] at hreach
      obtain ⟨y, hy, hfile⟩ := hreach
      refine ⟨hvis, ⟨y.kind, by rw [view, hy]; rfl, fun m₁ hk => ?_⟩, hc⟩
      cases y <;> cases hk
      cases hfile
    · rintro ⟨hvis, ⟨k, hview, hk⟩, hc⟩
      obtain ⟨y, hy, rfl⟩ := Option.map_eq_some_iff.1 hview
      obtain ⟨m', c', hfile⟩ : ∃ m' c', Os.Linked.listed w.fs.inodes y = .file m' c' := by
        cases y with
        | file ino => exact ⟨_, _, rfl⟩
        | link text => exact ⟨_, _, rfl⟩
        | dir m₁ es₁ => exact (hk m₁ rfl).elim
      exact ⟨m', c', hvis, by rw [hlisted, hy, Option.map_some, hfile], hc⟩
  · refine iff_of_false ?_ fun hlink => hlink.1 text hx
    rw [Os.Linked.listed, finds_file, List.append_nil]
    intro hc
    obtain ⟨ino, hino, -⟩ := Fs.read_eq_ok.1 (Fs.content_eq_some.1 hc)
    cases hl.symm.trans hino

/-- Indexing leaves the names that are visible, and what they lead to. -/
theorem Hosted.named_iff (h : Hosted s dir d w.fs) (hkeeps : w.Keeps d w') (hwf : w'.fs.WF)
    {r : List Bytes} (hr : w.fs.place (resolve dir) = .ok r) {q : List Bytes} {c : Bytes} :
    Named w'.fs dir r q c ↔ Named w.fs dir r q c := by
  have hiff (hvis : Visible q) (hplain : ∀ a ∈ q, Plain a) :
      view w'.fs.root (r ++ q) = view w.fs.root (r ++ q) ∧
        w'.fs.content (resolve dir ++ q) = w.fs.content (resolve dir ++ q) :=
    ⟨hkeeps.frame.agree _ (h.away hr hvis hplain), hkeeps.frame.content (h.outside q hvis)⟩
  constructor
  · rintro ⟨hvis, ⟨k, hk, hnot⟩, hc⟩
    obtain ⟨hview, hcontent⟩ := hiff hvis (Fs.plain_of_view hwf hk)
    exact ⟨hvis, ⟨k, hview ▸ hk, hnot⟩, hcontent ▸ hc⟩
  · rintro ⟨hvis, ⟨k, hk, hnot⟩, hc⟩
    obtain ⟨hview, hcontent⟩ := hiff hvis (Fs.plain_of_view h.sealed.wf hk)
    exact ⟨hvis, ⟨k, hview ▸ hk, hnot⟩, hcontent ▸ hc⟩

/-- **Every advertised chunk can be served** just when each that the store had was genuine, and the
store had them all if the directory's own name starts with a dot or is a link. -/
theorem served_iff (h : Hosted s dir d w.fs) {t : Merkle.Tree}
    (ht : ((buildFromFS dir).run (handleLinked peer)
      ((indexDirectory dir s).run (handleLinked peer) w).2).1 = .ok t) :
    (∀ hash, t.Mentions hash →
        Genuine s ((indexDirectory dir s).run (handleLinked peer) w).2.fs hash) ↔
      ∀ hash, t.Mentions hash → (LinkedHolds s w.fs hash → Genuine s w.fs hash) ∧
        (¬ LinkedHolds s w.fs hash → Merkle.hidden (base dir) = false ∧ Unlinked w.fs dir) := by
  obtain ⟨n, cs, w', hrun, hkeeps, ⟨t₀, t₁, ht₀, ht₁, hst⟩, hhash, hcs⟩ :=
    @Hosted.run_indexDirectory _ peer _ _ _ _ h
  rw [hrun] at ht ⊢
  obtain ⟨r, m, hr, hdir, hmentions⟩ := mentions_iff ht₁.shadow.wf ht
  -- The directory is where it was.
  have hout := h.outside [] (by simp [Visible])
  rw [List.append_nil] at hout
  rw [hout.place hkeeps.frame.agree] at hr
  rw [hkeeps.frame.agree r (hout.away r hr)] at hdir
  refine forall₂_congr fun hash hmem => ?_
  obtain ⟨q, c, hnamed, k, hk, rfl⟩ := (hmentions hash).1 hmem
  rw [genuine_after_iff h.cleanStore.abs ht₀ ht₁ hst hhash
    (by rw [Cas.length_hash_of_mem_chunksOf hk]; decide)]
  refine and_congr_right fun _ => imp_congr_right fun _ => ⟨?_, fun hcond => ⟨k, ?_, rfl⟩⟩
  · rintro ⟨k', hk', -⟩
    obtain ⟨hhidden, e, c', he, hfinds, -⟩ := (hcs k').1 hk'
    exact ⟨hhidden, ((finds_lstat_iff hr hdir).1 ⟨e, he, hfinds⟩).1⟩
  · obtain ⟨e, he, hfinds⟩ := (finds_lstat_iff hr hdir).2
      ⟨hcond.2, q, (h.named_iff hkeeps ht₁.shadow.wf hr).1 hnamed⟩
    exact (hcs k).2 ⟨hcond.1, e, c, he, hfinds, hk⟩

/-- An empty store, and a directory without links that it is not in. -/
theorem hosted_of_empty {fs : Fs} (hclean : IsClean dir) (hs : IsClean s.baseDir) (hwf : fs.WF)
    (hnum : fs.Numbered) {m m' : UInt32} {es : List (Bytes × Os.Linked.Entry)}
    (hempty : fs.lookup (resolve s.baseDir) = .ok (.dir m []))
    (hd : fs.place (resolve s.baseDir) = .ok d) {r : List Bytes}
    (hr : fs.place (resolve dir) = .ok r) (hdir : Os.Linked.reach fs.root r = some (.dir m' es))
    (hlink : ∀ x text, view fs.root (r ++ x) ≠ some (.link text))
    (haway : ∀ x, ¬ Below d (r ++ x)) : Hosted s dir d fs := by
  obtain ⟨d', hsealed, hreach⟩ := Os.Linked.sealed_of_empty hwf hnum hempty
  obtain rfl : d = d' := Except.ok.inj (hd.symm.trans hsealed.place)
  have hout : fs.Outside d (resolve dir) := by
    refine Fs.outside_of_vacant ?_ hr ?_
    · rintro _ ⟨q, hq, rfl⟩
      rw [Os.Linked.view_eq_none, Os.Linked.reach_append, hreach]
      obtain ⟨c, q, rfl⟩ := List.exists_cons_of_ne_nil hq
      cases q <;> rfl
    · rw [Os.Linked.view_eq_dir.2 ⟨es, hdir⟩]
      simp
  refine ⟨hclean, hs, hsealed, fun hash hne m₁ es₁ => ?_, fun hash _ ino => ?_, fun q hvis => ?_⟩
  · obtain ⟨e, c, -, htemp, -⟩ := BlobStore.place_eq_concat hs.abs hne
    rw [List.append_assoc] at htemp
    rw [htemp]
    refine Os.Linked.lookup_ne_of_empty hwf hnum hempty (by simp) (fun n hn => ?_) _
    refine plain_of_mem_resolve (s := s.chunkPath (Hex.encode hash) ++ Cas.tmpSuffix) ?_
    rw [← BlobStore.temp, htemp]
    exact List.mem_append_right _ hn
  · by_cases hloc : BlobStore.loc hash = []
    · rw [BlobStore.place, hloc, List.append_nil, hempty]
      simp
    · exact Os.Linked.lookup_ne_of_empty hwf hnum hempty hloc
        (fun _ => BlobStore.plain_of_mem_loc) _
  · refine hout.append hr hlink haway fun c hc hdots => ?_
    have hhidden := hvis c hc
    rw [hdots] at hhidden
    cases hhidden

end Hosted

/-- A directory in `/` with a file `a`, a link `/l` to it, and an empty store in `/s`. -/
def homeFs (name : Bytes) : Fs where
  root := some (.dir 0o755 [(name, .dir 0o755 [([97], .file 0)]), ([108], .link name),
    ([115], .dir 0o700 [])])
  inodes _ := .ofMode 0o644 [7]
  next := 1

def linkedHome (name : Bytes) : LinkedWorld (List Exchange) := ⟨homeFs name, 0o022, []⟩

/-- What `indexDirectory` leaves. -/
def indexed (dir name : Bytes) : LinkedWorld (List Exchange) :=
  ((indexDirectory dir ⟨[47, 115]⟩).run (handleLinked scripted) (linkedHome name)).2

theorem hosted_linkedHome : Hosted ⟨[47, 115]⟩ [47, 100] [[115]] (homeFs [100]) := by
  refine hosted_of_empty ⟨by decide, by decide⟩ ⟨by decide, by decide⟩ (by decide)
    (Fs.numbered_of_numbers (by decide)) rfl rfl (r := [[100]]) rfl rfl (fun x text => ?_)
    fun x => ?_
  · rcases x with _ | ⟨a, _ | ⟨b, x⟩⟩
    · intro h
      cases h
    · rw [Ne, Os.Linked.view_eq_link]
      by_cases ha : a = [97]
      · subst ha
        intro h
        cases h
      · simp [homeFs, Os.Linked.reach, List.lookup_cons, beq_eq_false_iff_ne.2 ha]
    · rw [Ne, Os.Linked.view_eq_link]
      by_cases ha : a = [97]
      · subst ha
        intro h
        cases h
      · simp [homeFs, Os.Linked.reach, List.lookup_cons, beq_eq_false_iff_ne.2 ha]
  · rintro ⟨y, -, hy⟩
    cases hy

/-- The chunk of `/d/a` is served. -/
theorem served_visible_root :
    ∃ t, ((buildFromFS [47, 100]).run (handleLinked scripted) (indexed [47, 100] [100])).1 =
        .ok t ∧ t.Mentions (Cas.newChunk [7]).hash ∧
      ∀ hash, t.Mentions hash → Genuine ⟨[47, 115]⟩ (indexed [47, 100] [100]).fs hash := by
  have hok : ((buildFromFS [47, 100]).run (handleLinked scripted)
      (indexed [47, 100] [100])).1.isOk = true := by
    decide +kernel
  obtain ⟨t, ht⟩ : ∃ t, ((buildFromFS [47, 100]).run (handleLinked scripted)
      (indexed [47, 100] [100])).1 = .ok t := by
    generalize ((buildFromFS [47, 100]).run _ (indexed [47, 100] [100])).1 = r at hok
    cases r with
    | error e => cases hok
    | ok t => exact ⟨t, rfl⟩
  have hwf : (indexed [47, 100] [100]).fs.WF := by decide +kernel
  obtain ⟨r, m, hr, -, hmentions⟩ := mentions_iff hwf ht
  have hplace : (indexed [47, 100] [100]).fs.place (resolve [47, 100]) = .ok [[100]] := by
    decide +kernel
  obtain rfl := Except.ok.inj (hr.symm.trans hplace)
  refine ⟨t, ht, (hmentions _).2 ⟨[[97]], [7], ⟨?_, ⟨.file 0, ?_, by simp⟩, ?_⟩, _, ?_, rfl⟩,
    (served_iff hosted_linkedHome ht).2 fun hash hmem => ⟨?_, fun _ => ⟨by decide, ?_⟩⟩⟩
  · simp [Visible, Merkle.hidden]
  · decide +kernel
  · decide +kernel
  · exact List.mem_singleton.2 (by rfl)
  · obtain ⟨q, c, -, k, hk, rfl⟩ := (hmentions hash).1 hmem
    have hlen : 2 ≤ k.hash.length := by
      rw [Cas.length_hash_of_mem_chunksOf hk]
      decide
    rintro ⟨e, he⟩
    refine (Os.Linked.lookup_ne_of_empty (b := [[115]]) (by decide)
      (Fs.numbered_of_numbers (by decide)) rfl (q := BlobStore.loc k.hash) ?_
      (fun _ => BlobStore.plain_of_mem_loc) e he).elim
    obtain ⟨x, y, -, -, hloc⟩ := BlobStore.loc_of_length hlen
    simp [hloc]
  · intro text h
    cases h

/-- Where nothing was put, the chunk of the file is advertised and not in the store. -/
theorem not_served_of_same {dir name : Bytes} (hsame : indexed dir name = linkedHome name)
    (hbuild : ((buildFromFS dir).run (handleLinked scripted) (linkedHome name)).1 =
      .ok ⟨some (Merkle.buildNode (base dir) (.dir 0o755 [([97], .file 0o644 [7])]))⟩)
    (hvac : linkedBlob ⟨[47, 115]⟩ (homeFs name) (Cas.newChunk [7]).hash = none) :
    ∃ t hash, ((buildFromFS dir).run (handleLinked scripted) (indexed dir name)).1 = .ok t ∧
      t.Mentions hash ∧ ¬ Genuine ⟨[47, 115]⟩ (indexed dir name).fs hash := by
  rw [hsame]
  refine ⟨_, (Cas.newChunk [7]).hash, hbuild, ⟨_, rfl, ?_⟩, ?_⟩
  · refine (Merkle.mentions_buildNode (.dir _ (by decide) (by decide) ?_) _ _).2 ⟨[7], ?_, ?_⟩
    · exact List.forall_mem_singleton.2 (.file _ _)
    · exact ⟨[[97]], 0o644, by simp [Visible, Merkle.hidden], rfl⟩
    · exact List.mem_map_of_mem (List.mem_singleton.2 (by rfl))
  · rintro ⟨c, hc, -⟩
    cases hvac.symm.trans hc

/-- Neither the chunk of `/.d/a` is served nor that of `/l/a`, where `/l` is a link to `/d`. -/
theorem roots_not_served :
    (∃ t hash, ((buildFromFS [47, 46, 100]).run (handleLinked scripted)
        (indexed [47, 46, 100] [46, 100])).1 = .ok t ∧ t.Mentions hash ∧
      ¬ Genuine ⟨[47, 115]⟩ (indexed [47, 46, 100] [46, 100]).fs hash) ∧
    ∃ t hash, ((buildFromFS [47, 108]).run (handleLinked scripted)
        (indexed [47, 108] [100])).1 = .ok t ∧ t.Mentions hash ∧
      ¬ Genuine ⟨[47, 115]⟩ (indexed [47, 108] [100]).fs hash :=
  ⟨not_served_of_same rfl rfl (by decide +kernel), not_served_of_same rfl rfl (by decide +kernel)⟩

end FileSync.Cli
